import Formula.Proofs.Compiled
import Formula.Proofs.Passage

/-!
# One name looked up twice

The scan looks a name up to decide how the text behind it is read, and the reading of the tokens
looks it up again for the operator. Both find the same entry, since no name changes its meaning on
the way, unless the name is the bare minus: the scan goes by the entry of `-` and the operator is
that of `u-`.
-/

namespace Formula

namespace Scanner

/-- The scan of a text adds the token for a name that it takes to stand for the entry, whose arity
decides how the text behind the token is read. -/
def Decides (resolver : Option Resolver) (scope : Scope) (text : String) (t : Token)
    (entry : Entry) : Prop :=
  ∃ s cs p next, Reaches resolver (.start scope) (Text.foldCase text).toList s cs ∧
    Piece.next? s.last cs = some p ∧ p.shape = .name ∧ s.absorb resolver p = .ok next ∧
    next.tokens = s.tokens.push t ∧ (s.learn resolver (String.ofList p.lexeme)).1 = some entry ∧
    next.last = classOf entry

variable {resolver : Option Resolver} {scope : Scope} {s t next final : Scanner}
  {cs back : List Char} {p : Piece}

theorem classOf_eq_value_iff {entry : Entry} : classOf entry = .value ↔ entry.arity = 0 := by
  unfold classOf
  split <;> simp_all

/-- A token is taken to stand for one entry only. -/
theorem Decides.unique {text : String} {token : Token} {entry other : Entry}
    (h : Decides resolver scope text token entry)
    (hother : Decides resolver scope text token other) : entry = other := by
  obtain ⟨s, cs, p, next, hreaches, hpiece, hshape, habsorb, hpush, hlearn, -⟩ := h
  obtain ⟨t, back, q, after, hagain, hsame, hname, htaken, hadded, hfound, -⟩ := hother
  have hindex : ∀ {s next : Scanner} {p : Piece}, p.shape = .name →
      s.absorb resolver p = .ok next → next.tokens = s.tokens.push token →
      token.index = s.index := by
    intro s next p hshape habsorb hpush
    rw [(absorb_eq_ok_iff.mp habsorb).tokens_of_name hshape] at hpush
    rw [← (Array.push_eq_push.mp hpush).1]
  have hs := hindex hshape habsorb hpush
  have ht := hindex hname htaken hadded
  have hplace : t = s ∧ back = cs := by
    rcases hreaches.total hagain with hon | hon
    · exact hon.eq_of_index (by omega)
    · exact (hon.eq_of_index (by omega)).imp Eq.symm Eq.symm
  obtain ⟨rfl, rfl⟩ := hplace
  obtain rfl := Option.some.inj (hpiece.symm.trans hsame)
  exact Option.some.inj (hlearn.symm.trans hfound)

/-- Every prefix token is taken to stand for the entry that its name has in the end. -/
theorem Scans.exists_decides {text : String} {token : Token}
    (h : Scans resolver (.start scope) (Text.foldCase text).toList final)
    (ht : token ∈ final.tokens.toList) (hkind : token.kind = .prefixOp) :
    ∃ name entry, token.lexeme = nameLexeme name ∧ name ≠ "u-" ∧
      Decides resolver scope text token entry ∧ final.scope.lookup name = some entry := by
  obtain ⟨front, back, hsplit⟩ := List.append_of_mem ht
  obtain ⟨s, cs, p, next, hreaches, hpiece, htakes, -, hpush, hrest⟩ :=
    h.exists_takes_of_tokens hsplit
  have hshape := htakes.name_of_tokens hpush hkind
  obtain ⟨entry, hlearn, hlookup, hlast⟩ := htakes.exists_learn hshape
  have htoken := hpush
  rw [htakes.tokens_of_name hshape] at htoken
  refine ⟨String.ofList p.lexeme, entry, ?_, ?_, ?_, ?_⟩
  · rw [← (Array.push_eq_push.mp htoken).1]
  · exact fun heq => (Piece.fits_of_next? hpiece).lexeme_ne (String.ofList_injective heq)
  · exact ⟨s, cs, p, next, hreaches, hpiece, hshape, absorb_eq_ok_iff.mpr htakes, hpush, hlearn,
      hlast⟩
  · exact hrest.reaches.within _ _ hlookup

end Scanner

/-- A program is made of the instructions of its tokens, whether its arities come out or not. -/
theorem Program.perm_of_ofTokensUnchecked {scope : Scope} {tokens : List Token} {p : Program}
    (h : ofTokensUnchecked scope tokens = .ok p) :
    p.Perm (tokens.filterMap (Token.instruction? scope)) := by
  unfold ofTokensUnchecked at h
  cases hrun : tokens.foldlM (Yard.step scope) .start with
  | error fault =>
    rw [hrun] at h
    cases h
  | ok final =>
    rw [hrun] at h
    cases h
    simpa [Yard.finish, Yard.start] using (Yard.foldlM_step_eq_ok_iff.mp hrun).finish_perm

/-- How the scan of a text and the reading of its tokens take one prefix token: the scan decides by
the one entry, the operator has the other, and they are the same but for the bare minus. The token
is taken for a value exactly where its operator has no operands, unless it is the bare minus and
just one of the two signs has none. -/
structure Settles (resolver : Option Resolver) (scope : Scope) (text : String)
    (tokens : List Token) (t : Token) (decided compiled : Entry) : Prop where
  decides : Scanner.Decides resolver scope text t decided
  decides_unique : ∀ entry, Scanner.Decides resolver scope text t entry → entry = decided
  reads : ∀ y, Yard.step (scan text scope resolver).scope y t =
    .ok (y.arrive .ofPrefix ⟨t.lexeme, compiled⟩)
  compiles : ∀ program,
    Program.ofTokensUnchecked (scan text scope resolver).scope tokens = .ok program →
      .operator ⟨t.lexeme, compiled⟩ ∈ program ∧
        ∀ op, .operator op ∈ program → op.name = t.lexeme → op.entry = compiled
  same : t.lexeme ≠ "u-" → decided = compiled
  minus : t.lexeme = "u-" → scope.lookup "-" = some decided ∧ scope.lookup "u-" = some compiled
  treated_iff : (Scanner.classOf decided = .value ↔ compiled.arity = 0) ↔
    (t.lexeme = "u-" → ∀ binary unary, scope.lookup "-" = some binary →
      scope.lookup "u-" = some unary → (binary.arity = 0 ↔ unary.arity = 0))

/-- The names that are built in keep their meaning from the beginning. -/
theorem Scope.Within.lookup_builtin {scope more : Scope} {name : String} (h : scope.Within more)
    (hbuiltin : (Builtin.find? name).isSome = true) : scope.lookup name = more.lookup name := by
  obtain ⟨entry, hentry⟩ := scope.exists_lookup hbuiltin
  rw [hentry, h _ _ hentry]

/-- The lexeme of a known name is known too. It has the entry of the name, unless the name is the
bare minus: then both signs have the entries that they had in the beginning. -/
theorem Scope.Within.exists_compiled {scope more : Scope} {name lexeme : String} {decided : Entry}
    (h : scope.Within more) (hlexeme : lexeme = Scanner.nameLexeme name) (hname : name ≠ "u-")
    (hdecided : more.lookup name = some decided) :
    ∃ compiled, more.lookup lexeme = some compiled ∧ (lexeme ≠ "u-" → decided = compiled) ∧
      (lexeme = "u-" → scope.lookup "-" = some decided ∧ scope.lookup "u-" = some compiled) := by
  by_cases hsign : name = "-"
  · subst hsign
    have hunary : lexeme = "u-" := hlexeme
    have hfound : (Builtin.find? "u-").isSome = true := by decide
    have hbinary : (Builtin.find? "-").isSome = true := by decide
    obtain ⟨compiled, hcompiled⟩ := more.exists_lookup hfound
    rw [hunary, h.lookup_builtin hbinary, h.lookup_builtin hfound]
    exact ⟨compiled, hcompiled, fun hne => absurd rfl hne, fun _ => ⟨hdecided, hcompiled⟩⟩
  · have hplain : lexeme = name := hlexeme.trans (if_neg hsign)
    rw [hplain]
    exact ⟨decided, hdecided, fun _ => rfl, fun heq => absurd heq hname⟩

/-- The scan decides for each prefix token by the entry that its operator has in the program, and
for the bare minus by that of `-`, while its operator is that of `u-`. -/
theorem settles_of_scan {text : String} {scope : Scope} {resolver : Option Resolver}
    {tokens : List Token} (h : (scan text scope resolver).outcome = .ok tokens) {t : Token}
    (ht : t ∈ tokens) (hkind : t.kind = .prefixOp) :
    ∃ decided compiled, Settles resolver scope text tokens t decided compiled := by
  obtain ⟨final, hscans, -, hscope, rfl⟩ := Scanner.exists_scans h
  obtain ⟨name, decided, hlexeme, hname, hdecides, hdecided⟩ := hscans.exists_decides ht hkind
  have hfirst : scope.Within final.scope := hscans.reaches.within
  obtain ⟨compiled, hcompiled, hsame, hminus⟩ := hfirst.exists_compiled hlexeme hname hdecided
  have hinstruction : t.instruction? final.scope = some (.operator ⟨t.lexeme, compiled⟩) :=
    Token.instruction?_operator (by rw [Token.precedence?, hkind]) hcompiled
  refine ⟨decided, compiled, hdecides, fun entry hentry => hentry.unique hdecides, ?_, ?_, hsame,
    hminus, ?_⟩
  · intro y
    rw [hscope]
    simp only [Yard.step, hkind, hcompiled]
  · rw [hscope]
    intro program hprogram
    have hperm := Program.perm_of_ofTokensUnchecked hprogram
    refine ⟨hperm.mem_iff.mpr (List.mem_filterMap.mpr ⟨t, ht, hinstruction⟩), ?_⟩
    intro op hop hopname
    obtain ⟨u, -, hu⟩ := List.mem_filterMap.mp (hperm.mem_iff.mp hop)
    have hlookup := Token.lookup_of_instruction? hu
    rw [hopname, hcompiled] at hlookup
    exact (Option.some.inj hlookup).symm
  · rw [Scanner.classOf_eq_value_iff]
    by_cases hunary : t.lexeme = "u-"
    · obtain ⟨hbinary, hcompiled⟩ := hminus hunary
      simp [hunary, hbinary, hcompiled]
    · simp [hunary, hsame hunary]

/-- A constant behind a minus, with both taken by their own entries. -/
theorem settles_minus_width :
    ∃ (tokens : List Token) (t : Token) (decided compiled : Entry),
      (scan "-width" (.ofFunctions [("Width", .constant 0 4)]) none).outcome = .ok tokens ∧
      tokens = [⟨.prefixOp, "u-", 0⟩, t] ∧ t = ⟨.prefixOp, "width", 1⟩ ∧ t ∈ tokens ∧
      t.kind = .prefixOp ∧
      Settles none (.ofFunctions [("Width", .constant 0 4)]) "-width" tokens t decided
        compiled := by
  have hscan : (scan "-width" (.ofFunctions [("Width", .constant 0 4)]) none).outcome =
      .ok [⟨.prefixOp, "u-", 0⟩, ⟨.prefixOp, "width", 1⟩] := by
    decide +kernel
  obtain ⟨decided, compiled, hsettles⟩ :=
    settles_of_scan hscan (List.mem_cons_of_mem _ (List.mem_singleton_self _)) rfl
  exact ⟨_, _, decided, compiled, hscan, rfl, rfl, by simp, rfl, hsettles⟩

/-- A constant in the place of the sign in front of an operand: the scan takes the sign for an
operator with two operands, and the program has the constant for it. -/
theorem decides_minus_constant :
    ∃ (e : Expression) (t : Token) (decided : Entry) (op : Operator),
      (compileWith "round(- 3)" [("u-", .constant 0 5)] none).outcome = .ok e ∧
      t ∈ e.tokens ∧ t.kind = .prefixOp ∧ t.lexeme = "u-" ∧
      Scanner.Decides none (.ofFunctions [("u-", .constant 0 5)]) "round(- 3)" t decided ∧
      decided.arity = 2 ∧ .operator op ∈ e.program ∧ op.name = t.lexeme ∧ op.entry.arity = 0 := by
  have hpasses : (compileWith "round(- 3)" [("u-", .constant 0 5)] none).passes (fun e =>
      e.tokens.contains ⟨.prefixOp, "u-", 6⟩ && e.program.any fun i =>
        i.name == "u-" && i.arity == 0) := by
    decide +kernel
  have harity : ((Scope.ofFunctions [("u-", .constant 0 5)]).lookup "-").map Entry.arity =
      some 2 := by
    decide +kernel
  obtain ⟨e, houtcome, htest⟩ := Compilation.exists_of_passes hpasses
  rw [Bool.and_eq_true, List.contains_iff_mem, List.any_eq_true] at htest
  obtain ⟨ht, i, hi, hop⟩ := htest
  obtain ⟨final, hscans, -, htokens, -, -⟩ := exists_of_compileWith houtcome
  obtain ⟨name, decided, hlexeme, hname, hdecides, hdecided⟩ :=
    hscans.exists_decides (htokens ▸ ht) rfl
  rw [hscans.scope_eq] at hdecided
  have hminus : name = "-" := by
    by_contra hne
    exact hname ((if_neg hne).symm.trans hlexeme.symm)
  rw [hminus, Scanner.start] at hdecided
  rw [hdecided] at harity
  have htwo : decided.arity = 2 := Option.some.inj harity
  cases i with
  | number value => cases hop
  | operator op =>
    rw [Bool.and_eq_true, beq_iff_eq, beq_iff_eq] at hop
    exact ⟨e, _, decided, op, houtcome, ht, rfl, rfl, hdecides, htwo, hi, hop.1,
      UInt64.toNat_inj.mp hop.2⟩

end Formula
