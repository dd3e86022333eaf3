import Formula.Console
import Formula.Proofs.Likeness

/-!
# Sessions

What a session keeps of the lines that it has read: the value of the last expression that compiled,
and which displays are on. The value goes by the name `ans`, which stands for a constant whatever it
is, so whether a line compiles does not depend on it. Two sessions in which the same expressions
compile compute the same values, whatever other lines stand between them.
-/

namespace Formula

/-- Entries are alike under every name when they take as many operands. -/
def Likeness.byArity : Likeness where
  names _ := True
  entries entry other := entry.arity = other.arity
  refl _ := rfl
  arity_eq h := h

namespace Console

/-- What a line is to a session. -/
inductive Input where
  | blank
  | command (c : Command)
  | expression (text : String)
  deriving DecidableEq

/-- A line is read without the blanks around it. -/
def Input.ofLine (line : String) : Input :=
  let text := Text.trim line
  if text.isEmpty then .blank
  else
    match Command.ofLine? text with
    | some c => .command c
    | none => .expression text

/-- The answer to each kind of line and the state behind it. -/
theorem respond_eq (s : State) (line : String) :
    respond s line =
      match Input.ofLine line with
      | .blank => ([], some s)
      | .command .help => (help, some s)
      | .command (.toggle display) =>
        ([display.title ++ (if (s.toggle display).shows display then " on" else " off")],
          some (s.toggle display))
      | .command .quit => ([farewell], none)
      | .expression text => ((answer s text).1, some (answer s text).2) := by
  unfold respond Input.ofLine
  dsimp only
  split
  · rfl
  · split <;> simp_all

/-- The state behind some lines, unless the session has ended. -/
def behind (s : State) : List String → Option State
  | [] => some s
  | line :: rest =>
    match (respond s line).2 with
    | none => none
    | some t => behind t rest

/-- The value that a line comes to, if it is an expression that compiles. -/
def value? (s : State) (line : String) : Option Float :=
  match Input.ofLine line with
  | .expression text => (compileLine s text).toOption.map Expression.evaluate
  | _ => none

/-- The values that a session computes, one after another. -/
def values (s : State) : List String → List Float
  | [] => []
  | line :: rest =>
    match (respond s line).2 with
    | none => []
    | some t => (value? s line).toList ++ values t rest

/-- The expression on a line, if it is one that compiles. -/
def accepted? (line : String) : Option String :=
  match Input.ofLine line with
  | .expression text => if (compileLine .start text).isOk then some text else none
  | _ => none

/-- The expressions that compile, up to the first line that ends the session. -/
def accepted (lines : List String) : List String :=
  (lines.takeWhile fun line => Input.ofLine line ≠ .command .quit).filterMap accepted?

/-- How often the lines turn a display on or off. -/
def toggles (display : Display) (lines : List String) : Nat :=
  lines.countP fun line => Input.ofLine line = .command (.toggle display)

section Compiling

variable {s t : State} {text line : String} {e : Expression}

theorem compileLine_eq (s : State) (text : String) :
    compileLine s text = (compileWith text [("ans", .constant 0 s.last)] none).outcome := by
  have hans : Text.foldCase "ans" = "ans" := by decide +kernel
  change (compileWith text [(Text.foldCase "ans", .constant 0 s.last)] none).outcome = _
  rw [hans]

theorem compileLine_eq_of_last (h : s.last = t.last) (text : String) :
    compileLine s text = compileLine t text := by
  rw [compileLine_eq, compileLine_eq, h]

/-- Of the functions of a session the name `ans` is the last value, and all others are built in. -/
theorem lookup_ofFunctions_ans (entry : Entry) (name : String) :
    (Scope.ofFunctions [("ans", entry)]).lookup name =
      if name = "ans" then some entry else Scope.builtin.lookup name := by
  have hans : Text.foldCase "ans" = "ans" := by decide +kernel
  rw [← List.nil_append [("ans", entry)], Scope.ofFunctions_concat, Scope.lookup_insert, hans,
    Scope.ofFunctions_nil]

/-- Whatever the last value is, a line compiles to the same tokens or fails in the same way. -/
theorem compileLine_alike (s t : State) (text : String) :
    Outcome.Alike .byArity (compileLine s text) (compileLine t text) := by
  rw [compileLine_eq, compileLine_eq]
  refine (compileWith_alike (fun name _ => ?_) (fun _ _ _ => trivial)
    fun _ _ _ _ _ => trivial).2
  rw [lookup_ofFunctions_ans, lookup_ofFunctions_ans]
  by_cases hname : name = "ans"
  · rw [if_pos hname, if_pos hname]
    exact .some rfl
  · rw [if_neg hname, if_neg hname]
    exact Likeness.byArity.rel_self _

/-- The tokens of a line are read with the last value under the name `ans`. -/
theorem perm_of_compileLine (h : compileLine s text = .ok e) :
    e.program.Perm (e.tokens.filterMap
      (Token.instruction? (.ofFunctions [("ans", .constant 0 s.last)]))) := by
  rw [compileLine_eq] at h
  obtain ⟨final, hscans, -, -, -, hprogram⟩ := exists_of_compileWith h
  have hperm := Program.perm_of_ofTokens hprogram
  rwa [hscans.scope_eq] at hperm

/-- The token of the name `ans` stands for the last value. -/
theorem instruction?_ans (last : Float) {t : Token} (hkind : t.kind = .prefixOp)
    (hname : t.lexeme = "ans") :
    t.instruction? (.ofFunctions [("ans", .constant 0 last)]) =
      some (.operator ⟨"ans", .constant 0 last⟩) := by
  have hprecedence : t.precedence? = some .ofPrefix := by rw [Token.precedence?, hkind]
  rw [← hname]
  refine Token.instruction?_operator hprecedence ?_
  rw [hname, lookup_ofFunctions_ans, if_pos rfl]

/-- Every `ans` on a line that compiles comes into the program as the last value. -/
theorem operator_ans_mem (h : compileLine s text = .ok e) {t : Token} (ht : t ∈ e.tokens)
    (hkind : t.kind = .prefixOp) (hname : t.lexeme = "ans") :
    .operator ⟨"ans", .constant 0 s.last⟩ ∈ e.program :=
  (perm_of_compileLine h).mem_iff.mpr
    (List.mem_filterMap.mpr ⟨t, ht, instruction?_ans s.last hkind hname⟩)

/-- The name `ans` denotes nothing but the last value. -/
theorem entry_ans (h : compileLine s text = .ok e) {op : Operator} (hop : .operator op ∈ e.program)
    (hname : op.name = "ans") : op.entry = .constant 0 s.last := by
  obtain ⟨t, -, ht⟩ := List.mem_filterMap.mp ((perm_of_compileLine h).mem_iff.mp hop)
  have hlookup := Token.lookup_of_instruction? ht
  rw [hname, lookup_ofFunctions_ans, if_pos rfl] at hlookup
  exact (Option.some.inj hlookup).symm

/-- A line compiles to the tokens to which it compiles with any other last value. -/
theorem exists_compileLine (h : compileLine s text = .ok e) (t : State) :
    ∃ other, compileLine t text = .ok other ∧ other.tokens = e.tokens := by
  have halike := compileLine_alike s t text
  rw [h] at halike
  generalize compileLine t text = outcome at halike
  cases halike with
  | ok text tokens hprograms => exact ⟨_, rfl, rfl⟩

/-- A line with nothing but `ans` on it compiles and has the last value. -/
theorem exists_compileLine_ans (s : State) :
    ∃ e, compileLine s "ans" = .ok e ∧ e.evaluate = s.last := by
  have hpasses : (compileWith "ans" [("ans", .constant 0 State.start.last)] none).passes
      (fun e => e.tokens == [⟨.prefixOp, "ans", 0⟩]) = true := by
    decide +kernel
  obtain ⟨first, hfirst, hfound⟩ := Compilation.exists_of_passes hpasses
  rw [← compileLine_eq] at hfirst
  obtain ⟨e, he, htokens⟩ := exists_compileLine hfirst s
  have hperm := perm_of_compileLine he
  rw [htokens, eq_of_beq hfound, List.filterMap_cons_some (instruction?_ans s.last rfl rfl),
    List.filterMap_nil, List.perm_singleton] at hperm
  refine ⟨e, he, ?_⟩
  rw [Expression.evaluate, hperm]
  rfl

/-- Whether a line is accepted can be seen with any last value. -/
theorem accepted?_eq_some_iff (s : State) :
    accepted? line = some text ↔
      Input.ofLine line = .expression text ∧ ∃ e, compileLine s text = .ok e := by
  have hsome : (compileLine .start text).isOk = true ↔ ∃ e, compileLine s text = .ok e := by
    have halike := compileLine_alike .start s text
    generalize compileLine .start text = first at halike ⊢
    generalize compileLine s text = second at halike ⊢
    cases halike with
    | error d => simp [Except.isOk, Except.toBool]
    | ok text tokens hprograms => simp [Except.isOk, Except.toBool]
  unfold accepted?
  cases hinput : Input.ofLine line with
  | blank => simp
  | command c => simp
  | expression other =>
    by_cases hother : other = text
    · subst hother
      simp [hsome]
    · have hne : Input.expression other ≠ .expression text := fun h => hother (by cases h; rfl)
      simp [hother]

end Compiling

section Lines

variable {s t u : State} {line text : String} {lines front back : List String}

/-- A line that is accepted computes a value, which `ans` stands for behind it. -/
theorem respond_of_accepted (h : accepted? line = some text) (s : State) :
    ∃ e, compileLine s text = .ok e ∧ value? s line = some e.evaluate ∧
      (respond s line).2 = some { s with last := e.evaluate } := by
  obtain ⟨hinput, e, he⟩ := (accepted?_eq_some_iff s).mp h
  refine ⟨e, he, ?_, ?_⟩
  · simp [value?, hinput, he, Except.toOption]
  · simp [respond_eq, hinput, answer, he]

/-- A line that is not accepted computes no value and leaves `ans` as it is. -/
theorem respond_of_not_accepted (h : accepted? line = none) (s : State) :
    value? s line = none ∧ ∀ t, (respond s line).2 = some t → t.last = s.last := by
  rw [respond_eq]
  cases hinput : Input.ofLine line with
  | blank => simp [value?, hinput]
  | command c =>
    cases c with
    | help => simp [value?, hinput]
    | toggle display => cases display <;> simp [value?, hinput, State.toggle]
    | quit => simp [value?, hinput]
  | expression text =>
    cases he : compileLine s text with
    | error d => simp [value?, hinput, he, Except.toOption, answer]
    | ok e =>
      have hsome := (accepted?_eq_some_iff s).mpr ⟨hinput, e, he⟩
      rw [h] at hsome
      cases hsome

/-- A session ends at a line that says so and at no other. -/
theorem respond_eq_none_iff (s : State) :
    (respond s line).2 = none ↔ Input.ofLine line = .command .quit := by
  rw [respond_eq]
  cases Input.ofLine line with
  | blank => simp
  | command c => cases c <;> simp
  | expression text => simp

/-- Each line leaves the displays as they are, but for the one that it turns on or off. -/
theorem shows_of_respond (h : (respond s line).2 = some t) (display : Display) :
    t.shows display =
      if Input.ofLine line = .command (.toggle display) then !s.shows display
      else s.shows display := by
  rw [respond_eq] at h
  cases hinput : Input.ofLine line with
  | blank =>
    rw [hinput] at h
    cases h
    simp
  | command c =>
    rw [hinput] at h
    cases c with
    | help =>
      cases h
      simp
    | toggle other =>
      cases h
      cases other <;> cases display <;> simp [State.shows, State.toggle]
    | quit => cases h
  | expression text =>
    rw [hinput] at h
    cases h
    cases he : compileLine s text <;> cases display <;> simp [answer, he, State.shows]

theorem behind_append (s : State) (front back : List String) :
    behind s (front ++ back) = (behind s front).bind (behind · back) := by
  induction front generalizing s with
  | nil => rfl
  | cons line front ih =>
    rw [List.cons_append, behind, behind]
    cases (respond s line).2 with
    | none => rfl
    | some t => exact ih t

/-- Lines that are not accepted leave `ans` as it is. -/
theorem last_of_not_accepted (h : behind s lines = some t)
    (hnone : ∀ line ∈ lines, accepted? line = none) : t.last = s.last := by
  induction lines generalizing s with
  | nil =>
    cases h
    rfl
  | cons line rest ih =>
    rw [behind] at h
    split at h
    · cases h
    · rename_i u hu
      rw [ih h fun later hlater => hnone later (by simp [hlater])]
      exact (respond_of_not_accepted (hnone line (by simp)) s).2 u hu

/-- A display changes with each line that turns it on or off. -/
theorem shows_behind (h : behind s lines = some t) (display : Display) :
    t.shows display =
      if Even (toggles display lines) then s.shows display else !s.shows display := by
  induction lines generalizing s with
  | nil =>
    cases h
    simp [toggles]
  | cons line rest ih =>
    rw [behind] at h
    split at h
    · cases h
    · rename_i u hu
      rw [ih h, shows_of_respond hu, toggles, toggles, List.countP_cons]
      by_cases hinput : Input.ofLine line = .command (.toggle display)
      · by_cases heven : Even (rest.countP fun line =>
          Input.ofLine line = .command (.toggle display)) <;> simp [hinput, heven, Nat.even_add_one]
      · simp [hinput]

theorem replies_cons (s : State) (line : String) (rest : List String) :
    replies s (line :: rest) =
      (respond s line).1 ++ (respond s line).2.elim [] (replies · rest) := by
  rw [replies]
  split <;> simp_all

/-- The answers to the lines that were read come before those to the others. -/
theorem replies_behind (h : behind s front = some t) :
    ∃ printed, ∀ back, replies s (front ++ back) = printed ++ replies t back := by
  induction front generalizing s with
  | nil =>
    cases h
    exact ⟨[], fun back => rfl⟩
  | cons line rest ih =>
    rw [behind] at h
    split at h
    · cases h
    · rename_i u hu
      obtain ⟨printed, hprinted⟩ := ih h
      refine ⟨(respond s line).1 ++ printed, fun back => ?_⟩
      rw [List.cons_append, replies_cons, hu, List.append_assoc, ← hprinted]
      rfl

/-- The values from some last value on, one for each text that compiles. -/
def compute (last : Float) : List String → List Float
  | [] => []
  | text :: rest =>
    match compileLine { State.start with last := last } text with
    | .ok e => e.evaluate :: compute e.evaluate rest
    | .error _ => compute last rest

theorem compute_cons {e : Expression} (he : compileLine s text = .ok e) (rest : List String) :
    compute s.last (text :: rest) = e.evaluate :: compute e.evaluate rest := by
  have hsame : compileLine { State.start with last := s.last } text = .ok e := by
    rw [← he]
    exact compileLine_eq_of_last rfl text
  rw [compute, hsame]

theorem accepted_cons (hgo : Input.ofLine line ≠ .command .quit) (rest : List String) :
    accepted (line :: rest) = (accepted? line).toList ++ accepted rest := by
  rw [accepted, List.takeWhile_cons_of_pos (by simpa using hgo), List.filterMap_cons]
  cases accepted? line <;> rfl

/-- The values of a session come from its last value and the expressions that compile. -/
theorem values_eq (s : State) (lines : List String) :
    values s lines = compute s.last (accepted lines) := by
  induction lines generalizing s with
  | nil => rfl
  | cons line rest ih =>
    rw [values]
    cases hnext : (respond s line).2 with
    | none =>
      have hquit := (respond_eq_none_iff s).mp hnext
      simp [accepted, hquit, compute]
    | some t =>
      have hgo : Input.ofLine line ≠ .command .quit := fun hquit => by
        rw [(respond_eq_none_iff s).mpr hquit] at hnext
        cases hnext
      dsimp only
      rw [ih, accepted_cons hgo]
      cases htext : accepted? line with
      | none =>
        obtain ⟨hvalue, hlast⟩ := respond_of_not_accepted htext s
        rw [hvalue, hlast t hnext]
        rfl
      | some text =>
        obtain ⟨e, he, hvalue, hbehind⟩ := respond_of_accepted htext s
        cases hnext.symm.trans hbehind
        rw [hvalue, Option.toList_some, Option.toList_some, List.singleton_append,
          List.singleton_append, compute_cons he]

/-- No line behind one that ends the session is answered. -/
theorem replies_quit (hquit : Input.ofLine line = .command .quit) (s : State)
    (front back : List String) :
    replies s (front ++ line :: back) = replies s (front ++ [line]) := by
  induction front generalizing s with
  | nil => simp [replies_cons, (respond_eq_none_iff s).mpr hquit]
  | cons first front ih =>
    rw [List.cons_append, List.cons_append, replies_cons, replies_cons]
    cases (respond s first).2 with
    | none => rfl
    | some t => exact congrArg _ (ih t)

end Lines

/-- What a session keeps of the lines that it has read, where the next one is answered: the last
value and what goes by the name `ans` on the next line, whatever it is, and the displays. -/
structure Remembers (front : List String) (s : State) : Prop where
  replies_eq : ∃ printed, ∀ back, replies .start (front ++ back) = printed ++ replies s back
  last_eq_nan : (∀ line ∈ front, accepted? line = none) → s.last = Arithmetic.nan
  last_eq : ∀ before line after text, front = before ++ line :: after →
    accepted? line = some text → (∀ later ∈ after, accepted? later = none) →
      ∃ t e, behind .start before = some t ∧ compileLine t text = .ok e ∧ s.last = e.evaluate
  compile_eq : ∀ text,
    compileLine s text = (compileWith text [("ans", .constant 0 s.last)] none).outcome
  lookup_eq : ∀ name, (Scope.ofFunctions [("ans", .constant 0 s.last)]).lookup name =
    if name = "ans" then some (.constant 0 s.last) else Scope.builtin.lookup name
  ans_mem : ∀ text e t, compileLine s text = .ok e → t ∈ e.tokens → t.kind = .prefixOp →
    t.lexeme = "ans" → .operator ⟨"ans", .constant 0 s.last⟩ ∈ e.program
  ans_eq : ∀ text e op, compileLine s text = .ok e → .operator op ∈ e.program → op.name = "ans" →
    op.entry = .constant 0 s.last
  ans_value : ∃ e, compileLine s "ans" = .ok e ∧ e.evaluate = s.last
  shows_iff : ∀ display, s.shows display = true ↔ Odd (toggles display front)

theorem remembers_of_behind {front : List String} {s : State} (h : behind .start front = some s) :
    Remembers front s where
  replies_eq := replies_behind h
  last_eq_nan := last_of_not_accepted h
  last_eq := by
    rintro before line after text rfl htext hafter
    rw [behind_append] at h
    obtain ⟨t, ht, hrest⟩ := Option.bind_eq_some_iff.mp h
    obtain ⟨e, he, -, hnext⟩ := respond_of_accepted htext t
    rw [behind, hnext] at hrest
    exact ⟨t, e, ht, he, last_of_not_accepted hrest hafter⟩
  compile_eq := compileLine_eq s
  lookup_eq := lookup_ofFunctions_ans _
  ans_mem := fun text e t he ht hkind hname => operator_ans_mem he ht hkind hname
  ans_eq := fun text e op he hop hname => entry_ans he hop hname
  ans_value := exists_compileLine_ans s
  shows_iff := fun display => by
    rw [shows_behind h display, ← Nat.not_even_iff_odd]
    have hoff : State.start.shows display = false := by cases display <;> rfl
    rw [hoff]
    split <;> simp_all

/-- A session keeps nothing of the lines that it has read but the value of the last expression that
compiled, under the name `ans`, and which displays are on. Whether a line compiles and to which
tokens does not depend on that, so the values come from the expressions that compile alone. Nothing
behind the line that ends the session has an answer. What is printed are the answers to the lines as
they stand where none has a backspace in it. -/
theorem session_history :
    (∀ front s, behind .start front = some s → Remembers front s) ∧
    (∀ s t text, Outcome.Alike .byArity (compileLine s text) (compileLine t text)) ∧
    (∀ lines others, accepted lines = accepted others →
      values .start lines = values .start others) ∧
    (∀ front line back, Input.ofLine line = .command .quit →
      replies .start (front ++ line :: back) = replies .start (front ++ [line])) ∧
    (∀ front line back, Input.ofLine (Text.rubout line) = .command .quit →
      transcript (front ++ line :: back) = transcript (front ++ [line])) ∧
    ∀ lines, (∀ line ∈ lines, '\x08' ∉ line.toList) →
      transcript lines = greeting ++ replies .start lines := by
  refine ⟨fun front s => remembers_of_behind, compileLine_alike, ?_,
    fun front line back hquit => replies_quit hquit .start front back, ?_, ?_⟩
  · intro lines others h
    rw [values_eq, values_eq, h]
  · intro front line back hquit
    rw [transcript, transcript, List.map_append, List.map_append, List.map_cons,
      replies_quit hquit]
    rfl
  · intro lines hlines
    have hsame : lines.map Text.rubout = lines :=
      calc lines.map Text.rubout
          = lines.map id := List.map_congr_left fun line hline =>
            Text.rubout_eq_self (hlines line hline)
        _ = lines := List.map_id lines
    rw [transcript, hsame]

/-- A command, a blank line and a text that does not compile stand between two expressions, the
second of which has the value of the first. -/
theorem session_history_ans :
    ∃ s e, behind .start ["pi", ":tokens", " ", "("] = some s ∧
      Remembers ["pi", ":tokens", " ", "("] s ∧ s.shows .tokens = true ∧
      (Scope.ofFunctions [("ans", .constant 0 s.last)]).lookup "ans" =
        some (.constant 0 Constant.pi.value) ∧
      compileLine s "ans" = .ok e ∧ e.evaluate = Constant.pi.value ∧
      values .start ["pi", ":tokens", " ", "(", " ans ", ":exit", "e"] =
        values .start ["pi", "ans"] ∧
      transcript ["pi", ":exitt\u0008", "e"] = transcript ["pi", ":exitt\u0008"] ∧
      transcript ["pi", "ans"] = greeting ++ replies .start ["pi", "ans"] := by
  have hsome : (behind .start ["pi", ":tokens", " ", "("]).isSome = true := by decide +kernel
  obtain ⟨s, hs⟩ := Option.isSome_iff_exists.mp hsome
  obtain ⟨hbehind, -, hvalues, -, htranscript, hprinted⟩ := session_history
  have hremembers := hbehind _ s hs
  have hlast : s.last = Constant.pi.value := by
    obtain ⟨t, first, ht, hfirst, hlast⟩ := hremembers.last_eq [] "pi" [":tokens", " ", "("] "pi"
      rfl (by decide +kernel) (by decide +kernel)
    cases ht
    have hpasses : (compileWith "pi" [("ans", .constant 0 State.start.last)] none).passes
        (fun e => decide (e.evaluate = Constant.pi.value)) = true := by
      decide +kernel
    obtain ⟨e, he, hvalue⟩ := Compilation.exists_of_passes hpasses
    rw [compileLine_eq, he] at hfirst
    cases hfirst
    exact hlast.trans (of_decide_eq_true hvalue)
  obtain ⟨e, he, hvalue⟩ := hremembers.ans_value
  refine ⟨s, e, hs, hremembers, ?_, ?_, he, hvalue.trans hlast, ?_, ?_, ?_⟩
  · refine (hremembers.shows_iff .tokens).mpr ?_
    decide +kernel
  · rw [hremembers.lookup_eq, if_pos rfl, hlast]
  · refine hvalues _ _ ?_
    decide +kernel
  · refine htranscript ["pi"] ":exitt\u0008" ["e"] ?_
    decide +kernel
  · refine hprinted _ ?_
    decide +kernel

end Console

end Formula
