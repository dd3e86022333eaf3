import Formula.Proofs.Reading

/-!
# What a program is made of

A number goes to the program where it is read; an operator goes there at some time after it. At
every step the program so far and the operators that wait are made of the tokens read, so in the end
nothing is lost, doubled or added, whatever parentheses are left open.
-/

namespace Formula

namespace Instruction

/-- The value of a number. -/
def value? : Instruction → Option Float
  | .number value => some value
  | .operator _ => none

/-- The operator, if it is one. -/
def operator? : Instruction → Option Operator
  | .number _ => none
  | .operator op => some op

theorem filterMap_value?_operators (ops : List Operator) :
    (ops.map operator).filterMap value? = [] := by
  induction ops with
  | nil => rfl
  | cons op ops ih => exact ih

end Instruction

/-- The token stands for an operator, between its operands or in front of them. -/
abbrev Token.IsOperator (t : Token) : Prop :=
  t.kind = .infixOp ∨ t.kind = .prefixOp

/-- The program is made of the tokens: its numbers are the values of the number tokens, in their
order, and its operators are those of the operator tokens, in some order, each with the lexeme of
its token for a name and with the entry that the scope has for it. -/
structure Program.MadeOf (scope : Scope) (tokens : List Token) (p : Program) : Prop where
  numbers : (p.filterMap Instruction.value?).map some =
    (tokens.filter (·.kind = .number)).map fun t => Decimal.readNumeral? t.lexeme
  operators : ((p.filterMap Instruction.operator?).map some).Perm
    ((tokens.filter (·.IsOperator)).map fun t =>
      (scope.lookup t.lexeme).map fun entry => ⟨t.lexeme, entry⟩)
  length_eq : p.length = tokens.countP fun t => t.kind = .number ∨ t.IsOperator

/-- Where a partial function is defined on what is kept and nowhere else, it gives what it has for
that. -/
theorem map_some_filterMap {α β : Type} {f g : α → Option β} {keep : α → Bool} {l : List α}
    (h : ∀ a ∈ l, if keep a then f a = g a ∧ (f a).isSome else f a = none) :
    (l.filterMap f).map some = (l.filter keep).map g := by
  induction l with
  | nil => rfl
  | cons a l ih =>
    have hrest := ih fun b hb => h b (List.mem_cons_of_mem a hb)
    have ha := h a List.mem_cons_self
    split at ha
    · rename_i hkeep
      obtain ⟨hsame, hsome⟩ := ha
      obtain ⟨b, hb⟩ := Option.isSome_iff_exists.mp hsome
      rw [List.filterMap_cons_some hb, List.filter_cons_of_pos hkeep, List.map_cons, List.map_cons,
        hrest, ← hb, hsame]
    · rename_i hkeep
      rw [List.filterMap_cons_none ha, List.filter_cons_of_neg hkeep, hrest]

section Tokens

variable {scope : Scope} {t : Token}

/-- Only a number token stands for a number, that of its lexeme. -/
theorem Token.value?_instruction? :
    (t.instruction? scope).bind Instruction.value? =
      if t.kind = .number then Decimal.readNumeral? t.lexeme else none := by
  unfold instruction?
  cases t.kind with
  | number => cases Decimal.readNumeral? t.lexeme <;> rfl
  | infixOp => cases scope.lookup t.lexeme <;> rfl
  | prefixOp => cases scope.lookup t.lexeme <;> rfl
  | _ => rfl

/-- Only an operator token stands for an operator, that of its lexeme. -/
theorem Token.operator?_instruction? :
    (t.instruction? scope).bind Instruction.operator? =
      if t.IsOperator then (scope.lookup t.lexeme).map fun entry => ⟨t.lexeme, entry⟩
      else none := by
  unfold instruction? IsOperator
  cases t.kind with
  | number => cases Decimal.readNumeral? t.lexeme <;> rfl
  | infixOp => cases scope.lookup t.lexeme <;> rfl
  | prefixOp => cases scope.lookup t.lexeme <;> rfl
  | _ => rfl

/-- A token that can be read has an instruction if it stands for a number or an operator. -/
theorem Token.Readable.isSome_instruction?_iff (h : t.Readable scope) :
    (t.instruction? scope).isSome ↔ t.kind = .number ∨ t.IsOperator := by
  constructor
  · intro hsome
    unfold instruction? at hsome
    split at hsome
    · exact .inl (by assumption)
    · exact .inr (.inl (by assumption))
    · exact .inr (.inr (by assumption))
    · cases hsome
  · rintro (hnumber | hoperator)
    · obtain ⟨value, hvalue⟩ := h.1 hnumber
      rw [instruction?_number hnumber hvalue]
      rfl
    · obtain ⟨precedence, entry, hprecedence, hentry⟩ := h.2 hoperator
      rw [instruction?_operator hprecedence hentry]
      rfl

end Tokens

namespace Yard

variable {scope : Scope} {y next final : Yard} {t : Token} {tokens : List Token}

/-- The numbers of the program are those that have been sent there, since none waits. -/
theorem values_finish (y : Yard) :
    y.finish.filterMap Instruction.value? = y.output.toList.filterMap Instruction.value? := by
  rw [finish, List.filterMap_append, Instruction.filterMap_value?_operators, List.append_nil]

/-- Operators that are sent on add no number. -/
theorem values_outputWith (y : Yard) (ops : List (Operator × Nat)) :
    (y.outputWith ops).filterMap Instruction.value? =
      y.output.toList.filterMap Instruction.value? := by
  have hops : ops.map (fun waiting => Instruction.operator waiting.1) =
      (ops.map Prod.fst).map Instruction.operator := by simp
  rw [outputWith, hops, List.filterMap_append, Instruction.filterMap_value?_operators,
    List.append_nil]

/-- A step adds the number of its token behind those before, if the token is one. -/
theorem Reads.values_eq (h : Reads scope y t next) :
    next.output.toList.filterMap Instruction.value? =
      y.output.toList.filterMap Instruction.value? ++
        ((t.instruction? scope).bind Instruction.value?).toList := by
  have hnone : t.kind ≠ .number → ((t.instruction? scope).bind Instruction.value?).toList = [] :=
    fun hkind => by rw [Token.value?_instruction?, if_neg hkind, Option.toList_none]
  cases h with
  | number hkind hvalue hstack houtput =>
    rw [houtput, List.filterMap_append, Token.instruction?_number hkind hvalue]
    rfl
  | operator hprecedence hentry hbefore hops hleft hstack houtput =>
    rw [houtput, values_outputWith, Token.instruction?_operator hprecedence hentry]
    exact (List.append_nil _).symm
  | parenOpen hkind hstack houtput =>
    rw [houtput, hnone (by simp [hkind]), List.append_nil]
  | parenClose hkind hbefore hstack houtput =>
    rw [houtput, values_outputWith, hnone (by simp [hkind]), List.append_nil]
  | separator hkind hbefore hstack houtput =>
    rw [houtput, values_outputWith, hnone (by simp [hkind]), List.append_nil]

/-- The numbers come in the order in which they are read. -/
theorem Run.values_eq (h : Run scope y tokens final) :
    final.output.toList.filterMap Instruction.value? =
      y.output.toList.filterMap Instruction.value? ++
        tokens.filterMap fun t => (t.instruction? scope).bind Instruction.value? := by
  induction h with
  | nil => simp
  | @cons y next final t tokens hstep hrest ih =>
    rw [ih, hstep.values_eq, List.append_assoc, List.filterMap_cons]
    cases (t.instruction? scope).bind Instruction.value? <;> rfl

/-- What a run over tokens leaves is made of them. -/
theorem Run.madeOf (h : Run scope .start tokens final) : final.finish.MadeOf scope tokens := by
  have hreadable := h.readable
  have hperm : final.finish.Perm (tokens.filterMap (Token.instruction? scope)) := by
    simpa [finish, start] using h.finish_perm
  constructor
  · rw [values_finish, h.values_eq]
    refine map_some_filterMap fun t ht => ?_
    rw [Token.value?_instruction?]
    by_cases hkind : t.kind = .number
    · obtain ⟨value, hvalue⟩ := (hreadable t ht).1 hkind
      simp [hkind, hvalue]
    · simp [hkind]
  · have hoperators := (hperm.filterMap Instruction.operator?).map some
    rw [List.filterMap_filterMap] at hoperators
    refine hoperators.trans (.of_eq (map_some_filterMap fun t ht => ?_))
    rw [Token.operator?_instruction?]
    by_cases hoperator : t.IsOperator
    · obtain ⟨precedence, entry, -, hentry⟩ := (hreadable t ht).2 hoperator
      simp [hoperator, hentry]
    · simp [hoperator]
  · rw [hperm.length_eq, List.length_filterMap_eq_countP]
    refine List.countP_congr fun t ht => ?_
    simpa using (hreadable t ht).isSome_instruction?_iff

end Yard

/-- A program is made of the tokens that it was read from: no instruction is lost, doubled or
added, whichever parentheses and separators stand among them. -/
theorem madeOf_of_ofTokens {scope : Scope} {tokens : List Token} {p : Program}
    (h : Program.ofTokens scope tokens = .ok p) : p.MadeOf scope tokens := by
  obtain ⟨final, hrun, rfl, -⟩ := Program.ofTokens_eq_ok_iff.mp h
  exact hrun.madeOf

/-- Two parentheses stay open, and the root waits below one of them to the end. -/
theorem madeOf_root_open :
    ∃ p, Program.ofTokens .builtin [⟨.parenOpen, "(", 0⟩, ⟨.number, "2", 1⟩, ⟨.infixOp, "^", 2⟩,
        ⟨.prefixOp, "sqrt", 3⟩, ⟨.parenOpen, "(", 7⟩, ⟨.number, "4", 8⟩] = .ok p ∧
      p.MadeOf .builtin [⟨.parenOpen, "(", 0⟩, ⟨.number, "2", 1⟩, ⟨.infixOp, "^", 2⟩,
        ⟨.prefixOp, "sqrt", 3⟩, ⟨.parenOpen, "(", 7⟩, ⟨.number, "4", 8⟩] ∧ p.length = 4 := by
  have hread : Program.ofTokens .builtin [⟨.parenOpen, "(", 0⟩, ⟨.number, "2", 1⟩,
      ⟨.infixOp, "^", 2⟩, ⟨.prefixOp, "sqrt", 3⟩, ⟨.parenOpen, "(", 7⟩, ⟨.number, "4", 8⟩] =
        .ok [.number 2, .number 4, .operator ⟨"sqrt", .ofBuiltin ⟨"sqrt", .unary .squareRoot⟩⟩,
          .operator ⟨"^", .ofBuiltin ⟨"^", .binary .power⟩⟩] := by
    rfl
  exact ⟨_, hread, madeOf_of_ofTokens hread, rfl⟩

end Formula
