import Formula.Entry

/-!
# Bindings

A finite list of names with their entries, each name once, in the order in which the names first
came.
-/

namespace Formula

/-- Names with their entries; no name comes twice. -/
structure Bindings where
  toList : List (String × Entry)
  nodup : (toList.map Prod.fst).Nodup

namespace Bindings

/-- Binds a name in a list: in place where the name stands already, else at the end. -/
def insertInto (name : String) (entry : Entry) : List (String × Entry) → List (String × Entry)
  | [] => [(name, entry)]
  | (other, old) :: rest =>
    if name = other then (name, entry) :: rest
    else (other, old) :: insertInto name entry rest

theorem mem_names_insertInto {name other : String} {entry : Entry} {l : List (String × Entry)} :
    other ∈ (insertInto name entry l).map Prod.fst ↔ other = name ∨ other ∈ l.map Prod.fst := by
  induction l with
  | nil => simp [insertInto]
  | cons head rest ih =>
    rcases head with ⟨first, old⟩
    by_cases heq : name = first
    · subst heq
      simp [insertInto]
    · simp only [insertInto, if_neg heq, List.map_cons, List.mem_cons, ih]
      constructor <;> rintro (h | h | h) <;> simp [h]

theorem nodup_insertInto {name : String} {entry : Entry} {l : List (String × Entry)}
    (h : (l.map Prod.fst).Nodup) : ((insertInto name entry l).map Prod.fst).Nodup := by
  induction l with
  | nil => simp [insertInto]
  | cons head rest ih =>
    rcases head with ⟨first, old⟩
    rw [List.map_cons, List.nodup_cons] at h
    by_cases heq : name = first
    · subst heq
      simpa [insertInto] using h
    · rw [insertInto, if_neg heq, List.map_cons, List.nodup_cons]
      refine ⟨?_, ih h.2⟩
      rw [mem_names_insertInto]
      rintro (hname | hrest)
      · exact heq hname.symm
      · exact h.1 hrest

/-- No names. -/
def empty : Bindings :=
  ⟨[], List.nodup_nil⟩

/-- Binds a name, replacing its former entry. -/
def insert (b : Bindings) (name : String) (entry : Entry) : Bindings :=
  ⟨insertInto name entry b.toList, nodup_insertInto b.nodup⟩

/-- The entry of a name. -/
def get? (b : Bindings) (name : String) : Option Entry :=
  b.toList.lookup name

/-- Binding a name changes what that name gives, and nothing else. -/
theorem get?_insert (b : Bindings) (name other : String) (entry : Entry) :
    (b.insert name entry).get? other = if other = name then some entry else b.get? other := by
  change (insertInto name entry b.toList).lookup other =
    if other = name then some entry else b.toList.lookup other
  induction b.toList with
  | nil =>
    by_cases h : other = name
    · simp [insertInto, h]
    · simp [insertInto, List.lookup_cons, h, beq_eq_false_iff_ne.mpr h]
  | cons head rest ih =>
    rcases head with ⟨first, old⟩
    by_cases hfirst : name = first
    · subst hfirst
      by_cases h : other = name
      · simp [insertInto, h]
      · simp [insertInto, List.lookup_cons, h, beq_eq_false_iff_ne.mpr h]
    · by_cases h : other = first
      · subst h
        simp [insertInto, hfirst, Ne.symm hfirst]
      · simp [insertInto, List.lookup_cons, hfirst, beq_eq_false_iff_ne.mpr h, ih]

end Bindings

end Formula
