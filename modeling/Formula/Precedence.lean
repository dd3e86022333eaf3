/-!
# Precedence

How tightly an operator binds, and which way a row of equal ones groups. An operator of higher
rank takes its operands first.
-/

namespace Formula

/-- The rank of an operator and whether a row of equal rank groups from the left. -/
structure Precedence where
  rank : Nat
  leftAssociative : Bool
  deriving Repr, DecidableEq

namespace Precedence

/-- The infix operators. Only the power groups from the right. -/
def table : List (String × Precedence) :=
  [("||", ⟨1, true⟩), ("&&", ⟨2, true⟩),
    ("==", ⟨3, true⟩), ("!=", ⟨3, true⟩), ("<>", ⟨3, true⟩),
    ("<", ⟨4, true⟩), (">", ⟨4, true⟩), ("<=", ⟨4, true⟩), (">=", ⟨4, true⟩),
    ("+", ⟨5, true⟩), ("-", ⟨5, true⟩),
    ("*", ⟨6, true⟩), ("%", ⟨6, true⟩), ("/", ⟨6, true⟩), ("^", ⟨7, false⟩)]

/-- The precedence of everything that stands in front of its operands, above every infix
operator. -/
def ofPrefix : Precedence :=
  ⟨8, false⟩

/-- The precedence of an infix operator. -/
def ofInfix? (lexeme : String) : Option Precedence :=
  table.lookup lexeme

/-- Whether an operator on the stack gives way to an arriving one: it does when it binds tighter,
and at equal rank when the row groups from the left. -/
def yields (arriving : Precedence) (waiting : Nat) : Bool :=
  if arriving.leftAssociative then arriving.rank ≤ waiting else arriving.rank < waiting

/-- The levels of the infix operators, from the loosest to the tightest. -/
inductive Level : String → Precedence → Prop where
  | or : Level "||" ⟨1, true⟩
  | and : Level "&&" ⟨2, true⟩
  | equality {lexeme : String} (h : lexeme ∈ ["==", "!=", "<>"]) : Level lexeme ⟨3, true⟩
  | order {lexeme : String} (h : lexeme ∈ ["<", ">", "<=", ">="]) : Level lexeme ⟨4, true⟩
  | sum {lexeme : String} (h : lexeme ∈ ["+", "-"]) : Level lexeme ⟨5, true⟩
  | product {lexeme : String} (h : lexeme ∈ ["*", "%", "/"]) : Level lexeme ⟨6, true⟩
  | power : Level "^" ⟨7, false⟩

theorem mem_table_of_ofInfix? {lexeme : String} {p : Precedence} (h : ofInfix? lexeme = some p) :
    (lexeme, p) ∈ table := by
  obtain ⟨front, back, htable, -⟩ := List.lookup_eq_some_iff.mp h
  rw [htable]
  simp

/-- Every row of the table is on its level. -/
theorem level_of_mem_table : ∀ row ∈ table, Level row.1 row.2 := by
  simp only [table, List.forall_mem_cons]
  exact ⟨.or, .and, .equality (by decide), .equality (by decide), .equality (by decide),
    .order (by decide), .order (by decide), .order (by decide), .order (by decide),
    .sum (by decide), .sum (by decide), .product (by decide), .product (by decide),
    .product (by decide), .power, by simp⟩

/-- The infix operators are those of the levels, with the precedence of their level. -/
theorem ofInfix?_eq_some_iff {lexeme : String} {p : Precedence} :
    ofInfix? lexeme = some p ↔ Level lexeme p := by
  constructor
  · exact fun h => level_of_mem_table _ (mem_table_of_ofInfix? h)
  · intro h
    cases h with
    | or | and | power => decide
    | equality h | order h | sum h | product h =>
      revert lexeme
      decide

theorem Level.mem_table {lexeme : String} {p : Precedence} (h : Level lexeme p) :
    (lexeme, p) ∈ table :=
  mem_table_of_ofInfix? (ofInfix?_eq_some_iff.mpr h)

/-- What stands in front of its operands binds tighter than every infix operator. -/
theorem Level.rank_lt_ofPrefix {lexeme : String} {p : Precedence} (h : Level lexeme p) :
    p.rank < ofPrefix.rank := by
  cases h <;> decide

/-- Ranks begin above zero. -/
theorem Level.rank_pos {lexeme : String} {p : Precedence} (h : Level lexeme p) : 0 < p.rank := by
  cases h <;> decide

/-- Exactly the operators of the highest rank group from the right. -/
theorem Level.leftAssociative_iff {lexeme : String} {p : Precedence} (h : Level lexeme p) :
    p.rank ≤ 7 ∧ (p.leftAssociative = true ↔ p.rank < 7) := by
  cases h <;> decide

end Precedence

end Formula
