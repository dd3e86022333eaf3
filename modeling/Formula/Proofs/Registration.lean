import Formula.Compiler
import Formula.Proofs.Binding

/-!
# Compilers built by changes

Functions and resolvers are given to a compiler one change after another. Of all entries that a name
is given, in whatever case, the last one counts, and of the resolvers the last one too. Nothing else
of the changes is left: a compiler compiles every text like any list of functions that has those
entries under those names, whatever the order and the case of the names in the list.
-/

namespace Formula

theorem Bindings.mem_toList_iff (b : Bindings) {name : String} {entry : Entry} :
    (name, entry) ∈ b.toList ↔ b.get? name = some entry := by
  rw [get?, List.lookup_eq_some_iff]
  constructor
  · intro hmem
    obtain ⟨front, back, hsplit⟩ := List.append_of_mem hmem
    refine ⟨front, back, hsplit, fun f hf => ?_⟩
    have hnodup := b.nodup
    rw [hsplit, List.map_append, List.map_cons] at hnodup
    have hne := (List.nodup_append.mp hnodup).2.2 _ (List.mem_map_of_mem hf) name (by simp)
    simpa using hne.symm
  · rintro ⟨front, back, hsplit, -⟩
    simp [hsplit]

namespace Compiler

/-- A change to a compiler: one function more, several ones, or another resolver. -/
inductive Change where
  | define (name : String) (entry : Entry)
  | defineAll (functions : List (String × Entry))
  | resolveWith (resolver : Resolver)

namespace Change

/-- The functions that a change adds, in their order. -/
def functions : Change → List (String × Entry)
  | .define name entry => [(name, entry)]
  | .defineAll functions => functions
  | .resolveWith _ => []

/-- The resolver that a change sets. -/
def resolver? : Change → Option Resolver
  | .resolveWith resolver => some resolver
  | _ => none

end Change

/-- The compiler behind a change. -/
def change (c : Compiler) : Change → Compiler
  | .define name entry => c.define name entry
  | .defineAll functions => c.defineAll functions
  | .resolveWith resolver => c.resolveWith resolver

/-- The compiler that changes make of a new one. -/
def build (changes : List Change) : Compiler :=
  changes.foldl change new

/-- The entries of the functions whose folded name this is, in their order. -/
def entriesOf (functions : List (String × Entry)) (name : String) : List Entry :=
  functions.filterMap fun f => if Text.foldCase f.1 = name then some f.2 else none

/-- The entry that changes give to a folded name last. -/
def lastEntry? (changes : List Change) (name : String) : Option Entry :=
  (entriesOf (changes.flatMap Change.functions) name).getLast?

/-- The resolver that changes set last. -/
def lastResolver? (changes : List Change) : Option Resolver :=
  (changes.filterMap Change.resolver?).getLast?

/-- The list has each name once to which changes give an entry, in some case, with the last entry
given to it. -/
structure ListsLast (changes : List Change) (functions : List (String × Entry)) : Prop where
  nodup : (foldedNames functions).Nodup
  mem_iff : ∀ name entry, (∃ key, (key, entry) ∈ functions ∧ Text.foldCase key = name) ↔
    lastEntry? changes name = some entry

variable {changes others : List Change} {functions listed : List (String × Entry)} {name : String}

@[simp] theorem entriesOf_append (functions listed : List (String × Entry)) (name : String) :
    entriesOf (functions ++ listed) name = entriesOf functions name ++ entriesOf listed name :=
  List.filterMap_append

theorem build_concat (changes : List Change) (a : Change) :
    build (changes ++ [a]) = (build changes).change a := by
  rw [build, List.foldl_concat]
  rfl

/-- Functions that are added go before the former ones, and of them the last one counts. -/
theorem get?_defineAll (c : Compiler) (functions : List (String × Entry)) (name : String) :
    (c.defineAll functions).functions.get? name =
      (entriesOf functions name).getLast?.or (c.functions.get? name) := by
  induction functions using List.reverseRecOn with
  | nil => rfl
  | append_singleton functions f ih =>
    have hconcat : c.defineAll (functions ++ [f]) = (c.defineAll functions).define f.1 f.2 := by
      rw [defineAll, List.foldl_concat]
      rfl
    rw [hconcat, get?_define, ih, entriesOf_append]
    by_cases hname : name = Text.foldCase f.1
    · simp [entriesOf, hname]
    · simp [entriesOf, hname, Ne.symm hname]

/-- In a scope of functions a name has the entry that it is listed with last. -/
theorem own_ofFunctions (functions : List (String × Entry)) (name : String) :
    (Scope.ofFunctions functions).own name = (entriesOf functions name).getLast? := by
  induction functions using List.reverseRecOn with
  | nil => rfl
  | append_singleton functions f ih =>
    rw [Scope.ofFunctions_concat, Scope.own_insert, ih, entriesOf_append]
    by_cases hname : name = Text.foldCase f.1
    · simp [entriesOf, hname]
    · simp [entriesOf, hname, Ne.symm hname]

/-- Whatever the change, its functions are added in their order. -/
theorem functions_change (c : Compiler) (a : Change) :
    (c.change a).functions = (c.defineAll a.functions).functions := by
  cases a <;> rfl

theorem resolver_change (c : Compiler) (a : Change) :
    (c.change a).resolver = a.resolver?.or c.resolver := by
  cases a with
  | define name entry => rfl
  | defineAll functions =>
    change (c.defineAll functions).resolver = c.resolver
    induction functions generalizing c with
    | nil => rfl
    | cons f functions ih => exact ih (c.define f.1 f.2)
  | resolveWith resolver => rfl

/-- A folded name stands for the entry that it was given last. -/
theorem get?_build (changes : List Change) (name : String) :
    (build changes).functions.get? name = lastEntry? changes name := by
  induction changes using List.reverseRecOn with
  | nil => rfl
  | append_singleton changes a ih =>
    rw [build_concat, functions_change, get?_defineAll, ih, lastEntry?, lastEntry?,
      List.flatMap_append, List.flatMap_singleton, entriesOf_append, List.getLast?_append]

theorem resolver_build (changes : List Change) :
    (build changes).resolver = lastResolver? changes := by
  induction changes using List.reverseRecOn with
  | nil => rfl
  | append_singleton changes a ih =>
    rw [build_concat, resolver_change, ih, lastResolver?, lastResolver?, List.filterMap_append,
      List.getLast?_append]
    cases hresolver : a.resolver? <;> simp [hresolver]

/-- Only folded names are given entries. -/
theorem foldCase_of_lastEntry? {entry : Entry} (h : lastEntry? changes name = some entry) :
    Text.foldCase name = name := by
  obtain ⟨f, -, hf⟩ := List.mem_filterMap.mp (List.mem_of_getLast? h)
  split at hf
  · rename_i hfold
    rw [← hfold, Text.foldCase_foldCase]
  · cases hf

/-- The functions of a compiler are a list of the last entries. -/
theorem listsLast_build (changes : List Change) :
    ListsLast changes (build changes).functions.toList := by
  have hfold : ∀ {key entry}, (key, entry) ∈ (build changes).functions.toList →
      Text.foldCase key = key := by
    intro key entry hmem
    rw [Bindings.mem_toList_iff, get?_build] at hmem
    exact foldCase_of_lastEntry? hmem
  refine ⟨?_, fun name entry => ?_⟩
  · rw [foldedNames, List.map_congr_left fun f hf => hfold hf]
    exact (build changes).functions.nodup
  · rw [← get?_build, ← Bindings.mem_toList_iff]
    constructor
    · rintro ⟨key, hmem, rfl⟩
      rwa [hfold hmem]
    · intro hmem
      exact ⟨name, hmem, hfold hmem⟩

/-- Lists of the same last entries make one scope. -/
theorem ListsLast.ofFunctions_eq (h : ListsLast changes functions)
    (hlisted : ListsLast changes listed) :
    Scope.ofFunctions functions = Scope.ofFunctions listed := by
  ext name entry
  rw [Scope.own_ofFunctions_eq_some_iff h.nodup, Scope.own_ofFunctions_eq_some_iff hlisted.nodup,
    h.mem_iff, hlisted.mem_iff]

/-- Every list of the last entries does for compiling. -/
theorem ListsLast.compile_build (h : ListsLast changes functions) (text : String) :
    (build changes).compile text = compileWith text functions (lastResolver? changes) := by
  rw [compile, resolver_build, compileWith, compileWith,
    (listsLast_build changes).ofFunctions_eq h]

/-- In a list with distinct folded names the only entry of a name is the last one. -/
theorem listsLast_iff (hnodup : (foldedNames functions).Nodup) :
    ListsLast changes functions ↔
      ∀ name, (entriesOf functions name).getLast? = lastEntry? changes name := by
  constructor
  · intro h name
    ext entry
    rw [← own_ofFunctions, Scope.own_ofFunctions_eq_some_iff hnodup, h.mem_iff]
  · intro h
    refine ⟨hnodup, fun name entry => ?_⟩
    rw [← h, ← own_ofFunctions, Scope.own_ofFunctions_eq_some_iff hnodup]

/-- Of the changes that make a compiler only what comes last for each name in whatever case, and the
last resolver, makes a difference. The compiler has exactly the last entries under the folded names,
and it compiles every text like any list of them; changes with the same last entries and the same
last resolver make compilers that compile every text alike. -/
theorem build_lists_last (changes : List Change) :
    (∀ name entry, (name, entry) ∈ (build changes).functions.toList ↔
      lastEntry? changes name = some entry) ∧
    (∀ functions, ListsLast changes functions → ∀ text,
      (build changes).compile text = compileWith text functions (lastResolver? changes)) ∧
    ∀ others, (∀ name, lastEntry? others name = lastEntry? changes name) →
      lastResolver? others = lastResolver? changes → ∀ text,
        (build others).compile text = (build changes).compile text := by
  refine ⟨fun name entry => ?_, fun functions h text => h.compile_build text, ?_⟩
  · rw [Bindings.mem_toList_iff, get?_build]
  · intro others hentries hresolver text
    have hsame : ListsLast others (build changes).functions.toList := by
      refine ⟨(listsLast_build changes).nodup, fun name entry => ?_⟩
      rw [hentries, (listsLast_build changes).mem_iff]
    rw [hsame.compile_build, hresolver, ← (listsLast_build changes).compile_build]

/-- The names `rate` and `width` are given two entries each, in different cases, and the resolver is
replaced by another one. -/
theorem build_rate_width :
    ∃ (changes others : List Change) (functions : List (String × Entry)) (resolve : Resolver),
      (resolve = fun name => if name = "depth" then some (.constant 4 5) else none) ∧
      changes = [.define "Rate" (.constant 0 1), .resolveWith fun _ => none,
        .defineAll [("width", .constant 2 3), ("RATE", .constant 1 2)],
        .define "Width" (.constant 3 4), .resolveWith resolve] ∧
      others = [.resolveWith resolve,
        .defineAll [("WIDTH", .constant 3 4), ("rate", .constant 1 2)]] ∧
      functions = [("Width", .constant 3 4), ("rAte", .constant 1 2)] ∧
      ListsLast changes functions ∧ (∀ name, lastEntry? others name = lastEntry? changes name) ∧
      ("rate", .constant 1 2) ∈ (build changes).functions.toList ∧
      (build changes).compile "Width * depth" =
        compileWith "Width * depth" functions (some resolve) ∧
      (build others).compile "Width * depth" = (build changes).compile "Width * depth" ∧
      (compileWith "Width * depth" functions (some resolve)).passes
        (fun e => e.evaluate == 20) := by
  have hrate : Text.foldCase "Rate" = "rate" ∧ Text.foldCase "RATE" = "rate" ∧
      Text.foldCase "rAte" = "rate" ∧ Text.foldCase "rate" = "rate" := by decide +kernel
  have hwidth : Text.foldCase "width" = "width" ∧ Text.foldCase "Width" = "width" ∧
      Text.foldCase "WIDTH" = "width" := by decide +kernel
  obtain ⟨resolve, hresolve⟩ : ∃ resolve : Resolver,
      resolve = fun name => if name = "depth" then some (.constant 4 5) else none := ⟨_, rfl⟩
  obtain ⟨changes, hchanges⟩ : ∃ changes : List Change,
      changes = [.define "Rate" (.constant 0 1), .resolveWith fun _ => none,
        .defineAll [("width", .constant 2 3), ("RATE", .constant 1 2)],
        .define "Width" (.constant 3 4), .resolveWith resolve] := ⟨_, rfl⟩
  obtain ⟨others, hothers⟩ : ∃ others : List Change, others = [.resolveWith resolve,
      .defineAll [("WIDTH", .constant 3 4), ("rate", .constant 1 2)]] := ⟨_, rfl⟩
  obtain ⟨functions, hfunctions⟩ : ∃ functions : List (String × Entry),
      functions = [("Width", .constant 3 4), ("rAte", .constant 1 2)] := ⟨_, rfl⟩
  have hlast : ∀ name, lastEntry? changes name = (entriesOf functions name).getLast? ∧
      lastEntry? others name = (entriesOf functions name).getLast? := by
    intro name
    by_cases hname : "rate" = name
    · simp [hchanges, hothers, hfunctions, lastEntry?, Change.functions, entriesOf, ← hname, hrate,
        hwidth]
    · by_cases hother : "width" = name
      · simp [hchanges, hothers, hfunctions, lastEntry?, Change.functions, entriesOf, ← hother,
          hrate, hwidth]
      · simp [hchanges, hothers, hfunctions, lastEntry?, Change.functions, entriesOf, hname, hother,
          hrate, hwidth]
  have hsame : ∀ name, lastEntry? others name = lastEntry? changes name :=
    fun name => (hlast name).2.trans (hlast name).1.symm
  have hnodup : (foldedNames functions).Nodup := by
    rw [hfunctions]
    decide +kernel
  have hlists : ListsLast changes functions :=
    (listsLast_iff hnodup).mpr fun name => (hlast name).1.symm
  have hresolvers : lastResolver? changes = some resolve ∧ lastResolver? others = some resolve := by
    rw [hchanges, hothers]
    exact ⟨rfl, rfl⟩
  obtain ⟨hmem, hcompile, hagain⟩ := build_lists_last changes
  refine ⟨changes, others, functions, resolve, hresolve, hchanges, hothers, hfunctions, hlists,
    hsame, ?_, ?_, hagain others hsame (hresolvers.2.trans hresolvers.1.symm) _, ?_⟩
  · rw [hmem, (hlast "rate").1, hfunctions]
    simp [entriesOf, hrate, hwidth]
  · rw [← hresolvers.1]
    exact hcompile functions hlists _
  · rw [hfunctions, hresolve]
    decide +kernel

end Compiler

end Formula
