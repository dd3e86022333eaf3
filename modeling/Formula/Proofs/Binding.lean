import Formula.Proofs.Compiled
import Formula.Proofs.Learning
import Mathlib.Data.List.Induction

/-!
# Names bound late and early

It makes no difference whether a resolver answers a name when the scan comes to it or the answer is
listed among the functions from the beginning. A scan that knows all answers beforehand takes up the
same pieces, and the program is read with the same scope.
-/

namespace Formula

/-- The names under which functions are known. -/
def foldedNames (functions : List (String × Entry)) : List String :=
  functions.map fun f => Text.foldCase f.1

namespace Scope

/-- Where folded names are distinct, each function settles its own name. -/
theorem own_ofFunctions_eq_some_iff {functions : List (String × Entry)}
    (hnodup : (foldedNames functions).Nodup) {name : String} {entry : Entry} :
    (ofFunctions functions).own name = some entry ↔
      ∃ key, (key, entry) ∈ functions ∧ Text.foldCase key = name := by
  induction functions using List.reverseRecOn with
  | nil => simp [ofFunctions_nil, builtin]
  | append_singleton functions f ih =>
    rcases f with ⟨last, value⟩
    simp only [foldedNames, List.map_append, List.map_cons, List.map_nil] at hnodup
    obtain ⟨hfront, -, hdisjoint⟩ := List.nodup_append.mp hnodup
    rw [ofFunctions_concat, own_insert]
    by_cases hname : name = Text.foldCase last
    · subst hname
      rw [if_pos rfl, Option.some.injEq]
      constructor
      · rintro rfl
        exact ⟨last, by simp, rfl⟩
      · rintro ⟨key, hkey, hfold⟩
        rcases List.mem_append.mp hkey with hkey | hkey
        · have hmem := List.mem_map_of_mem (f := fun f => Text.foldCase f.1) hkey
          exact absurd hfold (hdisjoint _ hmem _ (by simp))
        · cases List.mem_singleton.mp hkey
          rfl
    · rw [if_neg hname, ih hfront]
      constructor
      · rintro ⟨key, hkey, hfold⟩
        exact ⟨key, List.mem_append_left _ hkey, hfold⟩
      · rintro ⟨key, hkey, rfl⟩
        rcases List.mem_append.mp hkey with hkey | hkey
        · exact ⟨key, hkey, rfl⟩
        · cases List.mem_singleton.mp hkey
          exact absurd rfl hname

/-- Functions with distinct folded names can be listed in any order. -/
theorem ofFunctions_eq_of_perm {functions others : List (String × Entry)}
    (hnodup : (foldedNames functions).Nodup) (h : functions.Perm others) :
    ofFunctions functions = ofFunctions others := by
  have hothers : (foldedNames others).Nodup := (h.map _).nodup_iff.mp hnodup
  ext name entry
  simp only [own_ofFunctions_eq_some_iff hnodup, own_ofFunctions_eq_some_iff hothers, h.mem_iff]

end Scope

/-- The answers of a resolver as functions; a name without an answer is left out. -/
def answers (resolve : Resolver) (names : List String) : List (String × Entry) :=
  names.filterMap fun name => (resolve name).map (name, ·)

theorem mem_answers_iff {resolve : Resolver} {names : List String} {name : String}
    {entry : Entry} :
    (name, entry) ∈ answers resolve names ↔ name ∈ names ∧ resolve name = some entry := by
  simp [answers]

/-- The names with an answer are as distinct as the names. -/
theorem sublist_names_answers (resolve : Resolver) (names : List String) :
    ((answers resolve names).map Prod.fst).Sublist names := by
  induction names with
  | nil => exact .slnil
  | cons name names ih =>
    unfold answers at ih ⊢
    rw [List.filterMap_cons]
    cases resolve name with
    | none => exact ih.cons name
    | some entry => exact ih.cons_cons name

namespace Scanner

section Lockstep

variable {resolver : Option Resolver} {full : Scope} {s t next : Scanner} {cs back : List Char}
  {p : Piece}

/-- The scan with another scope, as if it had not asked for anything. -/
def knowing (s : Scanner) (full : Scope) : Scanner :=
  { s with scope := full, asked := [] }

/-- A piece is taken up in the same way where all names are known beforehand. -/
theorem Takes.knowing (h : Takes resolver s p next) (hfull : next.scope.Within full) :
    Takes none (s.knowing full) p (next.knowing full) := by
  cases h with
  | blank hshape => exact .blank hshape
  | parenOpen hshape => exact .parenOpen hshape
  | parenClose hshape hdepth => exact .parenClose hshape hdepth
  | separator hshape => exact .separator hshape
  | infixOp hshape => exact .infixOp hshape
  | number hshape => exact .number hshape
  | known hshape hentry => exact .known hshape (hfull _ _ hentry)
  | learned hshape hunknown hresolver hentry =>
    refine .known hshape (hfull _ _ ?_)
    rw [Scope.lookup_insert, if_pos rfl]

theorem Reaches.knowing (h : Reaches resolver s cs t back) (hfull : t.scope.Within full) :
    Reaches none (s.knowing full) cs (t.knowing full) back := by
  induction h with
  | here s cs => exact .here _ _
  | step hpiece htakes hrest ih =>
    exact .step hpiece (htakes.knowing (hrest.within.trans hfull)) (ih hfull)

/-- The scan ends with the same outcome where all names that it learns are known beforehand. -/
theorem Ends.knowing {ended : Scan} (h : Ends resolver t back ended) :
    Ends none (t.knowing t.scope) back ⟨t.scope, [], ended.outcome⟩ := by
  cases h with
  | finished hcs hdepth => exact .finished hcs hdepth
  | unclosed hcs hdepth => exact .unclosed hcs hdepth
  | unopened hcs hdepth => exact .unopened hcs hdepth
  | unrecognized hcs hpiece => exact .unrecognized hcs hpiece
  | unknown hpiece hunknown hresolver => exact .unknown hpiece hunknown rfl
  | unanswered hpiece hunknown hresolver hanswer => exact .unknown hpiece hunknown rfl

end Lockstep

end Scanner

/-- A scan that begins with the scope of another one at its end has the same outcome and asks for
nothing. -/
theorem scan_scope_scan (text : String) (scope : Scope) (resolver : Option Resolver) :
    scan text (scan text scope resolver).scope none =
      ⟨(scan text scope resolver).scope, [], (scan text scope resolver).outcome⟩ := by
  obtain ⟨t, back, hreaches, hends⟩ :=
    Scanner.exists_reaches resolver (.start scope) (Text.foldCase text).toList
  have hscope := hends.scope_eq
  unfold scan
  generalize Scanner.run resolver _ _ = ended at hends hscope ⊢
  rw [hscope]
  have hagain := hreaches.knowing (.refl t.scope)
  exact hagain.run_eq.trans hends.knowing.run_eq

section Early

variable (text : String) {functions : List (String × Entry)} (resolve : Resolver)

/-- No function goes by a name that the scan asks for, in whatever case. -/
theorem nodup_foldedNames_append_answers (hnodup : (foldedNames functions).Nodup) :
    (foldedNames (functions ++
      answers resolve (scan text (.ofFunctions functions) (some resolve)).asked)).Nodup := by
  obtain ⟨index, hlearned⟩ := Scanner.exists_learned text (.ofFunctions functions) resolve
  generalize scan text (.ofFunctions functions) (some resolve) = scanned at hlearned ⊢
  have hfold : ∀ f ∈ answers resolve scanned.asked, Text.foldCase f.1 = f.1 :=
    fun f hf => (hlearned.unknown _ (mem_answers_iff.mp hf).1).1.foldCase_eq
  have hsame : foldedNames (answers resolve scanned.asked) =
      (answers resolve scanned.asked).map Prod.fst := List.map_congr_left hfold
  rw [foldedNames, List.map_append, ← foldedNames, ← foldedNames, hsame, List.nodup_append]
  refine ⟨hnodup, (sublist_names_answers _ _).nodup hlearned.nodup, ?_⟩
  rintro name hname other hother rfl
  -- a function of that name would have made the scope know it
  obtain ⟨⟨key, entry⟩, hmem, rfl⟩ := List.mem_map.mp hname
  have hown := (Scope.own_ofFunctions_eq_some_iff hnodup).mpr ⟨key, hmem, rfl⟩
  have hunknown := (hlearned.unknown _ ((sublist_names_answers _ _).subset hother)).2
  rw [(Scope.eq_none_of_lookup hunknown).1] at hown
  cases hown

/-- The scope of the functions and the answers is the one that the scan has in the end. -/
theorem ofFunctions_append_answers (hnodup : (foldedNames functions).Nodup) :
    Scope.ofFunctions (functions ++
        answers resolve (scan text (.ofFunctions functions) (some resolve)).asked) =
      (scan text (.ofFunctions functions) (some resolve)).scope := by
  have hall := nodup_foldedNames_append_answers text resolve hnodup
  obtain ⟨index, hlearned⟩ := Scanner.exists_learned text (.ofFunctions functions) resolve
  generalize scan text (.ofFunctions functions) (some resolve) = scanned at hlearned hall ⊢
  have hanswers : ∀ name entry, (∃ key, (key, entry) ∈ answers resolve scanned.asked ∧
      Text.foldCase key = name) ↔ name ∈ scanned.asked ∧ resolve name = some entry := by
    intro name entry
    constructor
    · rintro ⟨key, hkey, rfl⟩
      rw [(hlearned.unknown _ (mem_answers_iff.mp hkey).1).1.foldCase_eq]
      exact mem_answers_iff.mp hkey
    · intro h
      exact ⟨name, mem_answers_iff.mpr h, (hlearned.unknown _ h.1).1.foldCase_eq⟩
  ext name entry
  simp only [Scope.own_ofFunctions_eq_some_iff hall, List.mem_append, or_and_right, exists_or,
    hanswers, ← Scope.own_ofFunctions_eq_some_iff hnodup, hlearned.own]
  by_cases hname : name ∈ scanned.asked
  · simp [hname, (Scope.eq_none_of_lookup (hlearned.unknown _ hname).2).1]
  · simp [hname]

end Early

/-- A text compiles to the same with a resolver, and without it where the names that it is asked for
and answers are functions from the beginning, in whatever order the functions are listed. -/
theorem compileWith_early (text : String) (functions early : List (String × Entry))
    (resolve : Resolver) (hnodup : (foldedNames functions).Nodup)
    (hearly : early.Perm
      (functions ++ answers resolve (compileWith text functions (some resolve)).asked)) :
    compileWith text early none =
      ⟨[], (compileWith text functions (some resolve)).outcome⟩ := by
  have hscope : Scope.ofFunctions early =
      (scan text (.ofFunctions functions) (some resolve)).scope := by
    have hall := nodup_foldedNames_append_answers text resolve hnodup
    rw [← ofFunctions_append_answers text resolve hnodup]
    exact (Scope.ofFunctions_eq_of_perm hall hearly.symm).symm
  unfold compileWith
  simp only [hscope, scan_scope_scan]
  rfl

/-- The answer for `root` takes an operand, so the sign behind it belongs to the number. -/
theorem compileWith_root_depth :
    ∃ (functions : List (String × Entry)) (resolve : Resolver) (root depth : Entry),
      root = ⟨1, .primitive (.unary .squareRoot)⟩ ∧ depth = .constant 0 2 ∧
      functions = [("Depth", depth)] ∧
      (resolve = fun name => if name = "root" then some root else none) ∧
      (foldedNames functions).Nodup ∧
      [("root", root), ("Depth", depth)].Perm (functions ++
        answers resolve (compileWith "Root -4 * depth" functions (some resolve)).asked) ∧
      compileWith "Root -4 * depth" [("root", root), ("Depth", depth)] none =
        ⟨[], (compileWith "Root -4 * depth" functions (some resolve)).outcome⟩ ∧
      (compileWith "Root -4 * depth" functions (some resolve)).passes (fun e =>
        e.tokens.map Token.lexeme == ["root", "-4", "*", "depth"]) := by
  have hnodup : (foldedNames [("Depth", Entry.constant 0 2)]).Nodup := by decide +kernel
  have hasked : (compileWith "Root -4 * depth" [("Depth", .constant 0 2)] (some fun name =>
      if name = "root" then some ⟨1, .primitive (.unary .squareRoot)⟩ else none)).asked =
        ["root"] := by
    decide +kernel
  refine ⟨_, _, _, _, rfl, rfl, rfl, rfl, hnodup, ?_, ?_, by decide +kernel⟩
  · rw [hasked]
    exact .swap _ _ _
  · refine compileWith_early _ _ _ _ hnodup ?_
    rw [hasked]
    exact .swap _ _ _

end Formula
