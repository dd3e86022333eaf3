import Formula.Proofs.Likeness
import Mathlib.Data.List.Nodup

/-!
# Functions whose names collide

Functions are known by their folded names, so of two whose names differ in case alone the one listed
later counts, and the order in which functions are listed can matter to a text. It does not where
the scan comes to no name that functions with different entries share; in a text that compiles it
does where some token has such a name.
-/

namespace Formula

/-- Functions of different entries share the folded name. -/
def Collides (functions : List (String × Entry)) (name : String) : Prop :=
  ∃ f ∈ functions, ∃ g ∈ functions,
    Text.foldCase f.1 = name ∧ Text.foldCase g.1 = name ∧ f.2 ≠ g.2

/-- A name without small letters is the folded name of no other name. -/
theorem eq_of_foldCase_eq {key name : String} (h : Text.foldCase key = name)
    (hname : ∀ c ∈ name.toList, c.toNat < 97 ∨ 122 < c.toNat) : key = name := by
  subst h
  apply String.toList_injective
  rw [Text.toList_foldCase] at hname ⊢
  refine ((List.map_congr_left fun c hc => ?_).trans (List.map_id _)).symm
  exact Lexeme.toLower_eq_of_code (hname _ (List.mem_map_of_mem hc))

variable {functions others : List (String × Entry)} {name : String} {entry : Entry}

/-- Where names are distinct as they are written, those without small letters do not collide. -/
theorem not_collides (hnodup : (functions.map Prod.fst).Nodup)
    (hname : ∀ c ∈ name.toList, c.toNat < 97 ∨ 122 < c.toNat) : ¬Collides functions name := by
  rintro ⟨f, hf, g, hg, hfold, hsame, hne⟩
  have hkeys : f.1 = g.1 :=
    (eq_of_foldCase_eq hfold hname).trans (eq_of_foldCase_eq hsame hname).symm
  exact hne (congrArg Prod.snd (List.inj_on_of_nodup_map hnodup hf hg hkeys))

namespace Scope

/-- The names of their own that functions give a scope are their folded names. -/
theorem own_ofFunctions_eq_none_iff :
    (ofFunctions functions).own name = none ↔ ∀ f ∈ functions, Text.foldCase f.1 ≠ name := by
  induction functions using List.reverseRecOn with
  | nil => simp [ofFunctions_nil, builtin]
  | append_singleton functions f ih =>
    rw [ofFunctions_concat, own_insert]
    by_cases hname : name = Text.foldCase f.1
    · rw [if_pos hname]
      simp only [reduceCtorEq, false_iff, not_forall]
      exact ⟨f, by simp, not_not.mpr hname.symm⟩
    · simp [hname, ih, or_imp, forall_and, Ne.symm hname]

/-- The entry of a name is that of some function of that name. -/
theorem exists_of_own_ofFunctions (h : (ofFunctions functions).own name = some entry) :
    ∃ f ∈ functions, Text.foldCase f.1 = name ∧ f.2 = entry := by
  induction functions using List.reverseRecOn with
  | nil => cases h
  | append_singleton functions f ih =>
    rw [ofFunctions_concat, own_insert] at h
    split at h
    · rename_i hname
      exact ⟨f, by simp, hname.symm, Option.some.inj h⟩
    · obtain ⟨g, hg, hfound⟩ := ih h
      exact ⟨g, List.mem_append_left _ hg, hfound⟩

/-- In whatever order functions are listed, a name for which they do not collide stands for the
same. -/
theorem lookup_ofFunctions_of_perm (hperm : functions.Perm others)
    (hname : ¬Collides functions name) :
    (ofFunctions functions).lookup name = (ofFunctions others).lookup name := by
  have hown : (ofFunctions functions).own name = (ofFunctions others).own name := by
    cases hfirst : (ofFunctions functions).own name with
    | none =>
      refine (own_ofFunctions_eq_none_iff.mpr fun f hf => ?_).symm
      exact own_ofFunctions_eq_none_iff.mp hfirst f (hperm.mem_iff.mpr hf)
    | some entry =>
      obtain ⟨f, hf, hfold, rfl⟩ := exists_of_own_ofFunctions hfirst
      cases hsecond : (ofFunctions others).own name with
      | none => exact absurd hfold (own_ofFunctions_eq_none_iff.mp hsecond f (hperm.mem_iff.mp hf))
      | some another =>
        obtain ⟨g, hg, hsame, rfl⟩ := exists_of_own_ofFunctions hsecond
        by_contra hne
        exact hname ⟨f, hf, g, hperm.mem_iff.mpr hg, hfold, hsame, fun heq => hne (congrArg _ heq)⟩
  rw [lookup, lookup, hown]

end Scope

/-- Entries are alike only when they are the same, at the names for which functions do not
collide. -/
def Likeness.apart (functions : List (String × Entry)) : Likeness where
  names name := ¬Collides functions name
  entries := Eq
  refl _ := rfl
  arity_eq h := h ▸ rfl

theorem Scope.alike_of_perm (hperm : functions.Perm others) :
    (ofFunctions functions).Alike (.apart functions) (ofFunctions others) := by
  intro name hname
  rw [lookup_ofFunctions_of_perm hperm hname]
  exact (Likeness.apart functions).rel_self _

section Order

variable {text : String} {resolver : Option Resolver} {e : Expression}

/-- The order of functions makes no difference to a text whose scan comes to no name for which they
collide. -/
theorem compileWith_eq_of_perm (hnodup : (functions.map Prod.fst).Nodup)
    (hperm : functions.Perm others)
    (hmeets : ∀ name index, Scanner.Meets resolver (.ofFunctions functions) text name index →
      ¬Collides functions (Scanner.nameLexeme name)) :
    compileWith text others resolver = compileWith text functions resolver := by
  have hsymbols : ∀ cs ∈ ['-'] :: Lexeme.infixSpellings, ∀ c ∈ cs,
      c.toNat < 97 ∨ 122 < c.toNat := by
    simp [Lexeme.infixSpellings]
  have hcovers : (Likeness.apart functions).Covers resolver (.ofFunctions functions) text := by
    refine ⟨fun cs hcs => ?_, fun name index hname => ?_, hmeets⟩
    · refine not_collides hnodup ?_
      rw [String.toList_ofList]
      exact hsymbols cs (List.mem_cons_of_mem _ hcs)
    · by_cases hsign : name = "-"
      · rw [hsign]
        exact not_collides hnodup (hsymbols ['-'] (by simp))
      · have hlexeme := hmeets name index hname
        rwa [Scanner.nameLexeme, if_neg hsign] at hlexeme
  exact compileWith_eq_of_alike (Scope.alike_of_perm hperm) hcovers.name
    (fun tokens => hcovers.matters) id

/-- An operator of the name of the function that is listed last has the entry of that function. -/
theorem entry_of_last {f : String × Entry}
    (h : (compileWith text (functions ++ [f]) resolver).outcome = .ok e) {op : Operator}
    (hop : .operator op ∈ e.program) (hname : op.name = Text.foldCase f.1) : op.entry = f.2 := by
  have hlookup := lookup_of_mem_program h hop
  obtain ⟨final, hscans, -, -, hscope, -⟩ := exists_of_compileWith h
  have hknown : (Scope.ofFunctions (functions ++ [f])).lookup op.name = some f.2 := by
    rw [Scope.ofFunctions_concat, Scope.lookup_insert, if_pos hname]
  rw [hscope, hscans.reaches.within _ _ hknown] at hlookup
  exact (Option.some.inj hlookup).symm

/-- Each prefix token of a text that compiles has its operator in the program. -/
theorem exists_operator_of_mem (h : (compileWith text functions resolver).outcome = .ok e)
    {t : Token} (ht : t ∈ e.tokens) (hkind : t.kind = .prefixOp) :
    ∃ op, .operator op ∈ e.program ∧ op.name = t.lexeme := by
  obtain ⟨final, hscans, -, htokens, -, hprogram⟩ := exists_of_compileWith h
  obtain ⟨precedence, entry, hprecedence, hentry⟩ :=
    (Program.readable_of_ofTokens hprogram t ht).2 (.inr hkind)
  have hinstruction := Token.instruction?_operator hprecedence hentry
  refine ⟨⟨t.lexeme, entry⟩, ?_, rfl⟩
  exact (Program.perm_of_ofTokens hprogram).mem_iff.mpr
    (List.mem_filterMap.mpr ⟨t, ht, hinstruction⟩)

/-- A text that compiles to the same with functions in every order has no token with a name for
which they collide: either function of such a name can be listed last. -/
theorem not_collides_of_forall_perm
    (h : (compileWith text functions resolver).outcome = .ok e)
    (hperm : ∀ others, functions.Perm others →
      compileWith text others resolver = compileWith text functions resolver)
    {t : Token} (ht : t ∈ e.tokens) (hkind : t.kind = .prefixOp) :
    ¬Collides functions t.lexeme := by
  rintro ⟨f, hf, g, hg, hfold, hsame, hne⟩
  obtain ⟨op, hop, hname⟩ := exists_operator_of_mem h ht hkind
  have hlast : ∀ k ∈ functions, Text.foldCase k.1 = t.lexeme → op.entry = k.2 := by
    intro k hk hlexeme
    obtain ⟨front, back, rfl⟩ := List.append_of_mem hk
    have hmoved : (front ++ k :: back).Perm ((front ++ back) ++ [k]) :=
      List.perm_middle.trans (List.perm_append_singleton k (front ++ back)).symm
    rw [← hperm _ hmoved] at h
    exact entry_of_last h hop (hname.trans hlexeme.symm)
  exact hne ((hlast f hf hfold).symm.trans (hlast g hg hsame))

/-- Functions with names that are distinct as they are written can be listed in any order for a text
whose scan comes to no name for which they collide, and for a text that compiles in no other case:
exactly where no token has such a name. -/
theorem order_of_compileWith (hnodup : (functions.map Prod.fst).Nodup) (text : String)
    (resolver : Option Resolver) :
    ((∀ name index, Scanner.Meets resolver (.ofFunctions functions) text name index →
        ¬Collides functions (Scanner.nameLexeme name)) →
      ∀ others, functions.Perm others →
        compileWith text others resolver = compileWith text functions resolver) ∧
    ∀ e, (compileWith text functions resolver).outcome = .ok e →
      ((∀ others, functions.Perm others →
          compileWith text others resolver = compileWith text functions resolver) ↔
        ∀ t ∈ e.tokens, t.kind = .prefixOp → ¬Collides functions t.lexeme) := by
  refine ⟨fun hmeets others hperm => compileWith_eq_of_perm hnodup hperm hmeets, ?_⟩
  intro e he
  refine ⟨fun hperm t ht hkind => not_collides_of_forall_perm he hperm ht hkind, ?_⟩
  intro htokens others hperm
  refine compileWith_eq_of_perm hnodup hperm fun name index hmeets => ?_
  have hscan : (scan text (.ofFunctions functions) resolver).outcome = .ok e.tokens :=
    outcome_scan_of_compileWith he
  exact htokens _ (hmeets.mem_tokens hscan) rfl

end Order

/-- The functions `X` and `x` collide, and no token of the text `y` has their name. -/
theorem order_of_compileWith_y :
    ∃ functions others : List (String × Entry), (functions.map Prod.fst).Nodup ∧
      functions.Perm others ∧ Collides functions "x" ∧
      (compileWith "y" functions none).passes (fun e => e.tokens == [⟨.prefixOp, "y", 0⟩]) ∧
      compileWith "y" others none = compileWith "y" functions none := by
  obtain ⟨functions, hfunctions⟩ : ∃ functions : List (String × Entry),
      functions = [("X", .constant 0 1), ("x", .constant 1 2), ("y", .constant 2 3)] := ⟨_, rfl⟩
  have hnodup : (functions.map Prod.fst).Nodup := by
    rw [hfunctions]
    decide
  have hpasses : (compileWith "y" functions none).passes
      (fun e => e.tokens == [⟨.prefixOp, "y", 0⟩]) = true := by
    rw [hfunctions]
    decide +kernel
  have hcollides : Collides functions "x" := by
    refine ⟨("X", .constant 0 1), by simp [hfunctions], ("x", .constant 1 2),
      by simp [hfunctions], by decide +kernel, by decide +kernel, ?_⟩
    simp [Entry.constant]
  have hsole : ∀ f ∈ functions, Text.foldCase f.1 = "y" → f.2 = .constant 2 3 := by
    have hcapital : Text.foldCase "X" ≠ "y" := by decide +kernel
    have hsmall : Text.foldCase "x" ≠ "y" := by decide +kernel
    intro f hf hfold
    simp only [hfunctions, List.mem_cons, List.not_mem_nil, or_false] at hf
    rcases hf with rfl | rfl | rfl
    · exact absurd hfold hcapital
    · exact absurd hfold hsmall
    · rfl
  obtain ⟨e, he, htokens⟩ := Compilation.exists_of_passes hpasses
  refine ⟨functions, functions.reverse, hnodup, functions.reverse_perm.symm, hcollides, hpasses, ?_⟩
  refine ((order_of_compileWith hnodup "y" none).2 e he).mpr ?_ _ functions.reverse_perm.symm
  intro t ht hkind
  rw [eq_of_beq htokens, List.mem_singleton] at ht
  rintro ⟨f, hf, g, hg, hfold, hsame, hne⟩
  rw [ht] at hfold hsame
  exact hne ((hsole f hf hfold).trans (hsole g hg hsame).symm)

/-- Of the functions `X` and `x` the one listed later is the value of the text `x`. -/
theorem order_matters_x :
    ∃ functions others : List (String × Entry), (functions.map Prod.fst).Nodup ∧
      functions.Perm others ∧
      (compileWith "x" functions none).passes (fun e => e.evaluate == 2) = true ∧
      (compileWith "x" others none).passes (fun e => e.evaluate == 1) = true ∧
      compileWith "x" functions none ≠ compileWith "x" others none := by
  have hfirst : (compileWith "x" [("X", .constant 0 1), ("x", .constant 1 2)] none).passes
      (fun e => e.evaluate == 2) = true := by decide +kernel
  have hsecond : (compileWith "x" [("x", .constant 1 2), ("X", .constant 0 1)] none).passes
      (fun e => e.evaluate == 1) = true := by decide +kernel
  have hnot : (compileWith "x" [("x", .constant 1 2), ("X", .constant 0 1)] none).passes
      (fun e => e.evaluate == 2) = false := by decide +kernel
  refine ⟨_, _, by decide, .swap _ _ _, hfirst, hsecond, fun heq => ?_⟩
  rw [heq, hnot] at hfirst
  cases hfirst

end Formula
