import Formula.Expression
import Formula.Proofs.Ending
import Formula.Proofs.Yard
import Mathlib.Data.List.Induction

/-!
# Compiled expressions

Where a compiled expression comes from: a scan to the end of the text, then a run over the tokens
that it leaves. So a program is no longer than its text, and each of its operators has an entry of
the caller's or a built-in one.
-/

namespace Formula

/-- A compiled expression comes from a scan to the end of its text and a run over its tokens. -/
theorem exists_of_compileWith {text : String} {functions : List (String × Entry)}
    {resolver : Option Resolver} {e : Expression}
    (h : (compileWith text functions resolver).outcome = .ok e) :
    ∃ final, Scanner.Scans resolver (.start (.ofFunctions functions))
        (Text.foldCase text).toList final ∧ final.depth = 0 ∧ e.tokens = final.tokens.toList ∧
      (scan text (.ofFunctions functions) resolver).scope = final.scope ∧
      Program.ofTokens final.scope e.tokens = .ok e.program := by
  unfold compileWith Scan.toExpression at h
  dsimp only at h
  split at h
  · cases h
  · rename_i tokens hscanned
    obtain ⟨final, hscans, hdepth, hscope, htokens⟩ := Scanner.exists_scans hscanned
    split at h
    · cases h
    · rename_i program hprogram
      cases h
      exact ⟨final, hscans, hdepth, htokens.symm, hscope, by rwa [← hscope]⟩

/-- The tokens of an expression are those of the scan. -/
theorem outcome_scan_of_compileWith {text : String} {functions : List (String × Entry)}
    {resolver : Option Resolver} {e : Expression}
    (h : (compileWith text functions resolver).outcome = .ok e) :
    (scan text (.ofFunctions functions) resolver).outcome = .ok e.tokens := by
  obtain ⟨final, hscans, hdepth, htokens, -, -⟩ := exists_of_compileWith h
  rw [scan, Scanner.run_eq_finish hscans, Scanner.finish, htokens]
  simp [hdepth]

/-- A text has no more tokens than bytes. -/
theorem Scanner.Scans.length_tokens_le {text : String} {resolver : Option Resolver} {scope : Scope}
    {final : Scanner}
    (h : Scanner.Scans resolver (.start scope) (Text.foldCase text).toList final) :
    final.tokens.toList.length ≤ text.utf8ByteSize := by
  have hsize := h.size_tokens_le
  simp only [Scanner.start, List.size_toArray, List.length_nil, Nat.zero_add] at hsize
  calc final.tokens.toList.length
      = final.tokens.size := Array.length_toList
    _ ≤ (Text.foldCase text).toList.length := hsize
    _ = text.toList.length := by rw [Text.toList_foldCase, List.length_map]
    _ ≤ text.utf8ByteSize := by
        rw [← Text.byteLength_toList]
        exact Text.length_le_byteLength _

/-- A program is no longer than the text that it was compiled from. -/
theorem length_program_le {text : String} {functions : List (String × Entry)}
    {resolver : Option Resolver} {e : Expression}
    (h : (compileWith text functions resolver).outcome = .ok e) :
    e.program.length ≤ text.utf8ByteSize := by
  obtain ⟨final, hscans, -, htokens, -, hprogram⟩ := exists_of_compileWith h
  calc e.program.length
      = (e.tokens.filterMap (Token.instruction? final.scope)).length :=
        (Program.perm_of_ofTokens hprogram).length_eq
    _ ≤ final.tokens.toList.length := by
        rw [htokens]
        exact List.length_filterMap_le _ _
    _ ≤ text.utf8ByteSize := hscans.length_tokens_le

/-- The property holds of the entries of all functions and of all that the resolver answers. -/
def EntriesSatisfy (P : Entry → Prop) (functions : List (String × Entry))
    (resolver : Option Resolver) : Prop :=
  (∀ f ∈ functions, P f.2) ∧
    ∀ resolve, resolver = some resolve → ∀ name entry, resolve name = some entry → P entry

/-- Each name stands for an entry with the property. -/
def Scope.Satisfies (P : Entry → Prop) (scope : Scope) : Prop :=
  ∀ name entry, scope.lookup name = some entry → P entry

theorem Scope.Satisfies.insert {P : Entry → Prop} {scope : Scope} (h : scope.Satisfies P)
    (name : String) {entry : Entry} (hentry : P entry) : (scope.insert name entry).Satisfies P := by
  intro other found hfound
  rw [lookup_insert] at hfound
  split at hfound
  · cases hfound
    exact hentry
  · exact h other found hfound

theorem Scope.satisfies_builtin {P : Entry → Prop} (h : ∀ b, P (Entry.ofBuiltin b)) :
    Scope.builtin.Satisfies P := by
  intro name entry hentry
  obtain ⟨b, -, rfl⟩ := Option.map_eq_some_iff.mp hentry
  exact h b

theorem Scope.satisfies_ofFunctions {P : Entry → Prop} (hbuiltin : ∀ b, P (Entry.ofBuiltin b))
    {functions : List (String × Entry)} (hfunctions : ∀ f ∈ functions, P f.2) :
    (Scope.ofFunctions functions).Satisfies P := by
  induction functions using List.reverseRecOn with
  | nil => exact satisfies_builtin hbuiltin
  | append_singleton functions f ih =>
    rw [Scope.ofFunctions_concat]
    exact (ih fun g hg => hfunctions g (List.mem_append_left _ hg)).insert _
      (hfunctions f (by simp))

/-- What holds of the built-in entries, the caller's and the resolver's holds of the entries of a
compiled program. -/
theorem entry_of_mem_program {P : Entry → Prop} (hbuiltin : ∀ b, P (Entry.ofBuiltin b))
    {text : String} {functions : List (String × Entry)} {resolver : Option Resolver}
    {e : Expression} (hentries : EntriesSatisfy P functions resolver)
    (h : (compileWith text functions resolver).outcome = .ok e) {op : Operator}
    (hop : .operator op ∈ e.program) : P op.entry := by
  obtain ⟨final, hscans, -, -, -, hprogram⟩ := exists_of_compileWith h
  have hscope : final.scope.Satisfies P := by
    refine hscans.invariant (P := fun s _ => s.scope.Satisfies P) ?_
      (Scope.satisfies_ofFunctions hbuiltin hentries.1)
    intro s cs p next hs hpiece htakes
    cases htakes
    case learned resolve entry hshape hunknown hresolver hentry =>
      exact hs.insert _ (hentries.2 _ hresolver _ _ hentry)
    all_goals exact hs
  have hmem := (Program.perm_of_ofTokens hprogram).mem_iff.mp hop
  obtain ⟨t, -, ht⟩ := List.mem_filterMap.mp hmem
  exact hscope _ _ (Token.lookup_of_instruction? ht)

/-- An operator of a compiled program has the entry that its name has in the end. -/
theorem lookup_of_mem_program {text : String} {functions : List (String × Entry)}
    {resolver : Option Resolver} {e : Expression}
    (h : (compileWith text functions resolver).outcome = .ok e) {op : Operator}
    (hop : .operator op ∈ e.program) :
    (scan text (.ofFunctions functions) resolver).scope.lookup op.name = some op.entry := by
  obtain ⟨final, -, -, -, hscope, hprogram⟩ := exists_of_compileWith h
  obtain ⟨t, -, ht⟩ := List.mem_filterMap.mp ((Program.perm_of_ofTokens hprogram).mem_iff.mp hop)
  rw [hscope]
  exact Token.lookup_of_instruction? ht

/-- Whether compiling gives an expression that passes a test. -/
def Compilation.passes (c : Compilation) (test : Expression → Bool) : Bool :=
  match c.outcome with
  | .ok e => test e
  | .error _ => false

theorem Compilation.exists_of_passes {c : Compilation} {test : Expression → Bool}
    (h : c.passes test = true) : ∃ e, c.outcome = .ok e ∧ test e = true := by
  unfold passes at h
  split at h
  · rename_i e houtcome
    exact ⟨e, houtcome, h⟩
  · cases h

end Formula
