import Formula.Proofs.Compiled

/-!
# Arguments of calls

A name that takes operands is called when an open parenthesis comes directly behind it; the
separators of that parenthesis cut what is inside into arguments. The arity check does not look at
one call after another, it adds up the whole program. What it enforces of the calls of a text is
their balance: the arguments that some have too many and others too few come to a number that the
rest of the text fixes.
-/

namespace Formula

/-- A call: how many operands its name takes, and how many separators cut its arguments. -/
structure Call where
  arity : Nat
  separators : Nat
  deriving Repr, DecidableEq

namespace Call

/-- The number of arguments. -/
def arguments (c : Call) : Nat :=
  c.separators + 1

/-- How many arguments there are beyond the operands that the name takes. -/
def surplus (c : Call) : Int :=
  c.arguments - c.arity

/-- The surpluses of calls, added up. -/
def total (cs : List Call) : Int :=
  (cs.map surplus).sum

@[simp] theorem total_cons (c : Call) (cs : List Call) :
    total (c :: cs) = c.surplus + total cs := by
  simp [total]

@[simp] theorem total_append (cs ds : List Call) : total (cs ++ ds) = total cs + total ds := by
  simp [total]

end Call

namespace Token

/-- Whether a token is a name that takes operands. -/
def takesOperands (scope : Scope) (t : Token) : Bool :=
  t.kind = .prefixOp && 0 < t.operands scope

/-- Whether a token is a value by itself: a number or a name without operands. -/
def isValue (scope : Scope) (t : Token) : Bool :=
  t.kind = .number || t.kind = .prefixOp && t.operands scope = 0

/-- Whether a value is due behind a token: behind an infix operator and behind a separator. -/
def opensPlace (t : Token) : Bool :=
  t.kind = .infixOp || t.kind = .separator

end Token

/-- The separators of the parenthesis that is open, up to its end; inside other parentheses, so
many of them, there are none of its own. -/
def ownSeparators (inside : Nat) : List Token → Nat
  | [] => 0
  | t :: rest =>
    match t.kind with
    | .parenOpen => ownSeparators (inside + 1) rest
    | .parenClose =>
      match inside with
      | 0 => 0
      | inside + 1 => ownSeparators inside rest
    | .separator => (if inside = 0 then 1 else 0) + ownSeparators inside rest
    | _ => ownSeparators inside rest

/-- The call of a name, if an open parenthesis comes directly behind it. -/
def callAt? (scope : Scope) (t : Token) : List Token → Option Call
  | [] => none
  | next :: rest =>
    if t.takesOperands scope && next.kind = .parenOpen then
      some ⟨t.operands scope, ownSeparators 0 rest⟩
    else none

/-- The calls of a text, in the order of their names. -/
def calls (scope : Scope) : List Token → List Call
  | [] => []
  | t :: rest => (callAt? scope t rest).toList ++ calls scope rest

/-- The places for values: at the beginning, behind each infix operator and behind each
separator. -/
def places (tokens : List Token) : Nat :=
  tokens.countP Token.opensPlace + 1

/-- The numbers and the names without operands. -/
def values (scope : Scope) (tokens : List Token) : Nat :=
  tokens.countP (Token.isValue scope)

/-- The operands that operators take without a call, beyond two of an infix operator and one of a
name. -/
def further (scope : Scope) : List Token → Int
  | [] => 0
  | t :: rest =>
    (if t.kind = .infixOp then (t.operands scope : Int) - 2
      else if t.takesOperands scope && (callAt? scope t rest).isNone then t.operands scope - 1
      else 0) + further scope rest

/-- The separators whose innermost parenthesis holds no arguments. The parentheses that are open
are listed from the inside, each with whether it does, and so is whether the next one would. -/
def straySeparators (scope : Scope) (called : Bool) (groups : List Bool) : List Token → Nat
  | [] => 0
  | t :: rest =>
    match t.kind with
    | .parenOpen => straySeparators scope false (called :: groups) rest
    | .parenClose => straySeparators scope false groups.tail rest
    | .separator =>
      (if groups.head? = some true then 0 else 1) + straySeparators scope false groups rest
    | _ => straySeparators scope (t.takesOperands scope) groups rest

/-- What the surpluses of all calls of a text come to: the places without a value of their own, the
further operands that are taken without a call, and less the stray separators. -/
def balance (scope : Scope) (tokens : List Token) : Int :=
  (places tokens - values scope tokens : Int) + further scope tokens -
    straySeparators scope false [] tokens

/-- The separators to come of all open parentheses that hold arguments. -/
def openSeparators (inside : Nat) : List Bool → List Token → Nat
  | [], _ => 0
  | group :: groups, tokens =>
    (if group then ownSeparators inside tokens else 0) + openSeparators (inside + 1) groups tokens

/-- The separators to come of the call that an open parenthesis would begin here. -/
def dueSeparators (called : Bool) : List Token → Nat
  | [] => 0
  | t :: rest => if called && t.kind = .parenOpen then ownSeparators 0 rest else 0

variable {scope : Scope} {t : Token}

theorem openSeparators_parenOpen (hkind : t.kind = .parenOpen) (inside : Nat) (groups : List Bool)
    (rest : List Token) :
    openSeparators inside groups (t :: rest) = openSeparators (inside + 1) groups rest := by
  induction groups generalizing inside with
  | nil => rfl
  | cons group groups ih => simp only [openSeparators, ownSeparators, hkind, ih]

theorem openSeparators_parenClose (hkind : t.kind = .parenClose) (inside : Nat)
    (groups : List Bool) (rest : List Token) :
    openSeparators (inside + 1) groups (t :: rest) = openSeparators inside groups rest := by
  induction groups generalizing inside with
  | nil => rfl
  | cons group groups ih => simp only [openSeparators, ownSeparators, hkind, ih]

theorem openSeparators_separator (hkind : t.kind = .separator) (inside : Nat)
    (groups : List Bool) (rest : List Token) :
    openSeparators (inside + 1) groups (t :: rest) = openSeparators (inside + 1) groups rest := by
  induction groups generalizing inside with
  | nil => rfl
  | cons group groups ih => simp [openSeparators, ownSeparators, hkind, ih]

theorem openSeparators_other (hkind : t.kind = .number ∨ t.kind = .infixOp ∨ t.kind = .prefixOp)
    (inside : Nat) (groups : List Bool) (rest : List Token) :
    openSeparators inside groups (t :: rest) = openSeparators inside groups rest := by
  induction groups generalizing inside with
  | nil => rfl
  | cons group groups ih =>
    rcases hkind with hkind | hkind | hkind <;>
      simp only [openSeparators, ownSeparators, hkind, ih]

@[simp] theorem openSeparators_end (inside : Nat) (groups : List Bool) :
    openSeparators inside groups [] = 0 := by
  induction groups generalizing inside with
  | nil => rfl
  | cons group groups ih => simp [openSeparators, ownSeparators, ih]

theorem dueSeparators_cons (called : Bool) (rest : List Token) :
    dueSeparators called (t :: rest) =
      if called && t.kind = .parenOpen then ownSeparators 0 rest else 0 := rfl

@[simp] theorem dueSeparators_false (tokens : List Token) : dueSeparators false tokens = 0 := by
  cases tokens <;> simp [dueSeparators]

/-- The separators of a call are those that are due behind its name. -/
theorem separators_callAt? (rest : List Token) :
    ((callAt? scope t rest).toList.map Call.separators).sum =
      dueSeparators (t.takesOperands scope) rest := by
  cases rest with
  | nil => rfl
  | cons next rest =>
    simp only [callAt?, dueSeparators]
    split <;> simp

theorem takesOperands_eq_false (hkind : t.kind ≠ .prefixOp) : t.takesOperands scope = false := by
  simp [Token.takesOperands, hkind]

/-- Every separator belongs to one call or is stray. -/
theorem countP_separator (scope : Scope) (called : Bool) (groups : List Bool)
    (tokens : List Token) :
    tokens.countP (·.kind = .separator) =
      ((calls scope tokens).map Call.separators).sum + dueSeparators called tokens +
        openSeparators 0 groups tokens + straySeparators scope called groups tokens := by
  induction tokens generalizing called groups with
  | nil => simp [calls, dueSeparators, straySeparators]
  | cons t rest ih =>
    rw [calls, List.map_append, List.sum_append, separators_callAt?, List.countP_cons]
    cases hkind : t.kind with
    | parenOpen =>
      rw [ih false (called :: groups), openSeparators_parenOpen hkind, dueSeparators_cons,
        takesOperands_eq_false (by simp [hkind]), dueSeparators_false]
      simp only [straySeparators, hkind, openSeparators]
      cases called with
      | false => simp
      | true =>
        simp
        omega
    | parenClose =>
      rw [ih false groups.tail, dueSeparators_cons, takesOperands_eq_false (by simp [hkind]),
        dueSeparators_false]
      cases groups with
      | nil => simp [straySeparators, hkind, openSeparators]
      | cons group groups =>
        simp [straySeparators, hkind, openSeparators, ownSeparators,
          openSeparators_parenClose hkind]
    | separator =>
      rw [ih false groups, dueSeparators_cons, takesOperands_eq_false (by simp [hkind]),
        dueSeparators_false]
      cases groups with
      | nil =>
        simp [straySeparators, hkind, openSeparators]
        omega
      | cons group groups =>
        simp only [straySeparators, hkind, openSeparators, ownSeparators,
          openSeparators_separator hkind]
        cases group <;> simp <;> omega
    | number =>
      rw [ih (t.takesOperands scope) groups, openSeparators_other (.inl hkind), dueSeparators_cons]
      simp [straySeparators, hkind]
      omega
    | infixOp =>
      rw [ih (t.takesOperands scope) groups, openSeparators_other (.inr (.inl hkind)),
        dueSeparators_cons]
      simp [straySeparators, hkind]
      omega
    | prefixOp =>
      rw [ih (t.takesOperands scope) groups, openSeparators_other (.inr (.inr hkind)),
        dueSeparators_cons]
      simp [straySeparators, hkind]
      omega

/-- The separators of a text are those of its calls and the stray ones. -/
theorem countP_separator_eq (scope : Scope) (tokens : List Token) :
    tokens.countP (·.kind = .separator) =
      ((calls scope tokens).map Call.separators).sum + straySeparators scope false [] tokens := by
  have h := countP_separator scope false [] tokens
  simpa [openSeparators] using h

/-- What an instruction gains the stack, by the operands of its token. -/
theorem height_instruction? (hknown : (t.instruction? scope).isSome) :
    Program.height (t.instruction? scope).toList = 1 - t.operands scope := by
  obtain ⟨i, hi⟩ := Option.isSome_iff_exists.mp hknown
  simp [Token.operands, hi, Instruction.gain]

theorem arity_of_callAt? {rest : List Token} {c : Call} (h : callAt? scope t rest = some c) :
    t.takesOperands scope = true ∧ c.arity = t.operands scope := by
  unfold callAt? at h
  split at h
  · cases h
  · split at h
    · rename_i hcall
      cases h
      rw [Bool.and_eq_true] at hcall
      exact ⟨hcall.1, rfl⟩
    · cases h

/-- What one token adds to the height of a program, sorted by what the token is. -/
theorem height_token (rest : List Token)
    (hknown : t.kind = .number ∨ t.kind = .infixOp ∨ t.kind = .prefixOp →
      (t.instruction? scope).isSome) :
    Program.height (t.instruction? scope).toList =
      (if t.isValue scope then 1 else 0) + ((callAt? scope t rest).toList.map fun c =>
        (1 - c.arity : Int)).sum - (if t.kind = .infixOp then 1 else 0) -
        (if t.kind = .infixOp then (t.operands scope : Int) - 2
          else if t.takesOperands scope && (callAt? scope t rest).isNone then t.operands scope - 1
          else 0) := by
  have hcall : t.takesOperands scope = false → callAt? scope t rest = none := by
    intro htakes
    cases rest <;> simp [callAt?, htakes]
  cases hkind : t.kind with
  | number =>
    have hzero : t.operands scope = 0 := by
      unfold Token.operands Token.instruction?
      rw [hkind]
      cases Decimal.readNumeral? t.lexeme <;> rfl
    rw [height_instruction? (hknown (.inl hkind)), hcall (by simp [Token.takesOperands, hkind])]
    simp [Token.isValue, Token.takesOperands, hkind, hzero]
  | infixOp =>
    rw [height_instruction? (hknown (.inr (.inl hkind))),
      hcall (by simp [Token.takesOperands, hkind])]
    simp [Token.isValue, hkind]
    omega
  | prefixOp =>
    rw [height_instruction? (hknown (.inr (.inr hkind)))]
    by_cases hzero : t.operands scope = 0
    · rw [hcall (by simp [Token.takesOperands, hzero])]
      simp [Token.isValue, Token.takesOperands, hkind, hzero]
    · cases hcalled : callAt? scope t rest with
      | none =>
        simp [Token.isValue, Token.takesOperands, hkind, hzero, Nat.pos_of_ne_zero hzero]
      | some c =>
        have harity := (arity_of_callAt? hcalled).2
        simp [Token.isValue, hkind, hzero, harity]
  | parenOpen =>
    rw [Token.instruction?_parenOpen hkind, hcall (by simp [Token.takesOperands, hkind])]
    simp [Token.isValue, Token.takesOperands, hkind]
  | parenClose =>
    rw [Token.instruction?_parenClose hkind, hcall (by simp [Token.takesOperands, hkind])]
    simp [Token.isValue, Token.takesOperands, hkind]
  | separator =>
    rw [Token.instruction?_separator hkind, hcall (by simp [Token.takesOperands, hkind])]
    simp [Token.isValue, Token.takesOperands, hkind]

/-- The height of the instructions of a text, sorted by what its tokens are. -/
theorem height_filterMap {tokens : List Token}
    (hknown : ∀ t ∈ tokens, t.kind = .number ∨ t.kind = .infixOp ∨ t.kind = .prefixOp →
      (t.instruction? scope).isSome) :
    Program.height (tokens.filterMap (Token.instruction? scope)) =
      values scope tokens + ((calls scope tokens).map fun c => (1 - c.arity : Int)).sum -
        tokens.countP (·.kind = .infixOp) - further scope tokens := by
  induction tokens with
  | nil => simp [values, calls, further]
  | cons t rest ih =>
    have hrest := ih fun u hu => hknown u (List.mem_cons_of_mem t hu)
    have hfirst := height_token rest (hknown t (by simp))
    rw [List.filterMap_eq_flatMap_toList, List.flatMap_cons, ← List.filterMap_eq_flatMap_toList,
      Program.height_append, hrest, hfirst]
    simp only [values, List.countP_cons, calls, further, List.map_append, List.sum_append,
      decide_eq_true_eq]
    push_cast
    omega

theorem Call.total_eq (cs : List Call) :
    total cs = (cs.map fun c => (1 - c.arity : Int)).sum + ((cs.map separators).sum : Nat) := by
  induction cs with
  | nil => rfl
  | cons c cs ih =>
    rw [total_cons, ih, surplus, arguments]
    simp only [List.map_cons, List.sum_cons]
    push_cast
    omega

theorem countP_opensPlace (tokens : List Token) :
    tokens.countP Token.opensPlace =
      tokens.countP (·.kind = .infixOp) + tokens.countP (·.kind = .separator) := by
  induction tokens with
  | nil => rfl
  | cons t rest ih =>
    rw [List.countP_cons, List.countP_cons, List.countP_cons, ih, Token.opensPlace]
    cases t.kind <;> simp <;> omega

/-- The surpluses of the calls are what the height and the rest of the text leave for them. -/
theorem total_calls {tokens : List Token}
    (hknown : ∀ t ∈ tokens, t.kind = .number ∨ t.kind = .infixOp ∨ t.kind = .prefixOp →
      (t.instruction? scope).isSome) :
    Call.total (calls scope tokens) =
      balance scope tokens +
        (Program.height (tokens.filterMap (Token.instruction? scope)) - 1) := by
  have hheight := height_filterMap hknown
  have hseparators := countP_separator_eq scope tokens
  have hplaces := countP_opensPlace tokens
  rw [Call.total_eq, balance, places, hplaces, hheight, hseparators]
  push_cast
  omega

/-- What the calls of an accepted text have too many of their arguments and too few comes to its
balance. The check counts modulo `2 ^ 64`; within bounds the sum is exact, so a call has the number
of arguments that its name takes exactly when the other calls alone come to the balance. -/
theorem total_calls_of_compileWith {text : String} {functions : List (String × Entry)}
    {resolver : Option Resolver} {e : Expression} {scope : Scope}
    (hscope : scope = (scan text (.ofFunctions functions) resolver).scope)
    (h : (compileWith text functions resolver).outcome = .ok e) :
    Call.total (calls scope e.tokens) ≡ balance scope e.tokens [ZMOD 2 ^ 64] ∧
      (text.utf8ByteSize < 2 ^ 63 → (∀ i ∈ e.program, i.IsCounted) →
        Call.total (calls scope e.tokens) = balance scope e.tokens ∧
          ∀ front c back, calls scope e.tokens = front ++ c :: back →
            (c.arguments = c.arity ↔ Call.total (front ++ back) = balance scope e.tokens)) := by
  obtain ⟨final, -, -, -, hfinal, hprogram⟩ := exists_of_compileWith h
  have heq : scope = final.scope := hscope.trans hfinal
  rw [heq]
  obtain ⟨yard, hrun, -, -⟩ := Program.ofTokens_eq_ok_iff.mp hprogram
  have htotal := total_calls hrun.isSome_instruction?
  rw [← Program.height_eq_of_perm (Program.perm_of_ofTokens hprogram)] at htotal
  have hdepth := (Program.checkArity_eq_ok_iff _).mp (checkArity_of_compileWith h)
  constructor
  · have hone : (1 : Int) ≡ Program.height e.program [ZMOD 2 ^ 64] := by
      have hmod := Program.depthAfter_modEq hdepth
      rwa [Int64.toInt_one, Int64.toInt_zero, Int.zero_add] at hmod
    rw [htotal]
    simpa using (hone.symm.sub_right 1).add_left (balance final.scope e.tokens)
  · intro htext hcounted
    have hlength := length_program_le h
    have hheight := Program.toInt_of_depthAfter hcounted Int64.toInt_zero.ge
      (by rw [Int64.toInt_zero]; omega) hdepth
    rw [Int64.toInt_one, Int64.toInt_zero] at hheight
    have hexact : Call.total (calls final.scope e.tokens) = balance final.scope e.tokens := by
      omega
    refine ⟨hexact, fun front c back hsplit => ?_⟩
    rw [hsplit, Call.total_append, Call.total_cons, Call.surplus] at hexact
    rw [Call.total_append]
    omega

/-- In `if(round(7, 2), 1, 2)` the balance is zero, so the call of `round` has as many arguments as
its name takes because the call of `if` has. -/
theorem calls_if_round :
    ∃ e, (compileWith "if(round(7, 2), 1, 2)" [] none).outcome = .ok e ∧
      (calls (scan "if(round(7, 2), 1, 2)" (.ofFunctions []) none).scope e.tokens).map
        (fun c => (c.arity, c.separators)) = [(3, 2), (2, 1)] ∧
      Call.total [⟨3, 2⟩, ⟨2, 1⟩] ≡
        balance (scan "if(round(7, 2), 1, 2)" (.ofFunctions []) none).scope e.tokens [ZMOD 2 ^ 64] ∧
      Call.total [⟨3, 2⟩, ⟨2, 1⟩] =
        balance (scan "if(round(7, 2), 1, 2)" (.ofFunctions []) none).scope e.tokens ∧
      (Call.mk 2 1).arguments = (Call.mk 2 1).arity := by
  have hpasses : (compileWith "if(round(7, 2), 1, 2)" [] none).passes (fun e =>
      calls (scan "if(round(7, 2), 1, 2)" (.ofFunctions []) none).scope e.tokens =
          [⟨3, 2⟩, ⟨2, 1⟩] &&
        (balance (scan "if(round(7, 2), 1, 2)" (.ofFunctions []) none).scope e.tokens = 0 &&
          e.program.all fun i => i.arity < 2 ^ 63)) = true := by
    decide +kernel
  obtain ⟨e, houtcome, htest⟩ := Compilation.exists_of_passes hpasses
  simp only [Bool.and_eq_true, decide_eq_true_eq, List.all_eq_true] at htest
  obtain ⟨hcalls, hbalance, hcounted⟩ := htest
  obtain ⟨hmod, hbounded⟩ := total_calls_of_compileWith rfl houtcome
  obtain ⟨hexact, hexcept⟩ := hbounded (by decide) hcounted
  have hround := hexcept [⟨3, 2⟩] ⟨2, 1⟩ [] hcalls
  rw [hcalls] at hmod hexact
  refine ⟨e, houtcome, by rw [hcalls]; rfl, hmod, hexact, hround.mpr ?_⟩
  rw [hbalance]
  rfl

/-- In `round(sqrt(4, 2))` the argument that `round` lacks is paid for by the one that `sqrt` has
too many. -/
theorem accepted_round_sqrt :
    ∃ e, (compileWith "round(sqrt(4, 2))" [] none).outcome = .ok e ∧
      e.tokens.map Token.lexeme = ["round", "(", "sqrt", "(", "4", ",", "2", ")", ")"] ∧
      (calls (scan "round(sqrt(4, 2))" (.ofFunctions []) none).scope e.tokens).map
        (fun c => (c.arity, c.arguments)) = [(2, 1), (1, 2)] := by
  have hpasses : (compileWith "round(sqrt(4, 2))" [] none).passes (fun e =>
      e.tokens.map Token.lexeme = ["round", "(", "sqrt", "(", "4", ",", "2", ")", ")"] &&
        (calls (scan "round(sqrt(4, 2))" (.ofFunctions []) none).scope e.tokens).map
          (fun c => (c.arity, c.arguments)) = [(2, 1), (1, 2)]) = true := by
    decide +kernel
  obtain ⟨e, houtcome, htest⟩ := Compilation.exists_of_passes hpasses
  rw [Bool.and_eq_true, decide_eq_true_eq, decide_eq_true_eq] at htest
  exact ⟨e, houtcome, htest⟩

end Formula
