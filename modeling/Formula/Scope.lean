import Formula.Entry
import Formula.Text.Fold

/-!
# Scopes

A scope says what every name stands for: an entry of its own if it has one, else the built-in
operation of that name. Two scopes that say the same of every name are equal.
-/

namespace Formula

/-- Answers names that a scope does not know; it may leave a name unanswered. -/
abbrev Resolver := String → Option Entry

/-- The entries that go before the built-in operations. -/
@[ext] structure Scope where
  own : String → Option Entry

namespace Scope

/-- The scope of the built-in operations only. -/
def builtin : Scope :=
  ⟨fun _ => none⟩

/-- Sets what a name stands for; the name is taken as it is. -/
def insert (s : Scope) (name : String) (entry : Entry) : Scope :=
  ⟨fun other => if other = name then some entry else s.own other⟩

/-- What a name stands for. -/
def lookup (s : Scope) (name : String) : Option Entry :=
  match s.own name with
  | some entry => some entry
  | none => (Builtin.find? name).map Entry.ofBuiltin

/-- Whether a name stands for anything. -/
def contains (s : Scope) (name : String) : Bool :=
  (s.own name).isSome || (Builtin.find? name).isSome

/-- The scope of the listed functions, their names folded; of two with one folded name the later
counts. -/
def ofFunctions (functions : List (String × Entry)) : Scope :=
  functions.foldl (fun s (name, entry) => s.insert (Text.foldCase name) entry) builtin

@[simp] theorem own_insert (s : Scope) (name other : String) (entry : Entry) :
    (s.insert name entry).own other = if other = name then some entry else s.own other := rfl

/-- Setting a name changes what that name stands for, and nothing else. -/
theorem lookup_insert (s : Scope) (name other : String) (entry : Entry) :
    (s.insert name entry).lookup other = if other = name then some entry else s.lookup other := by
  by_cases h : other = name <;> simp [lookup, h]

theorem contains_eq_isSome_lookup (s : Scope) (name : String) :
    s.contains name = (s.lookup name).isSome := by
  unfold contains lookup
  cases s.own name <;> simp

theorem ofFunctions_nil : ofFunctions [] = builtin := rfl

/-- A function listed last settles its folded name. -/
theorem ofFunctions_concat (functions : List (String × Entry)) (name : String) (entry : Entry) :
    ofFunctions (functions ++ [(name, entry)]) =
      (ofFunctions functions).insert (Text.foldCase name) entry := by
  simp [ofFunctions]

end Scope

end Formula
