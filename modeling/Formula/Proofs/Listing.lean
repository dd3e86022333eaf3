import Formula.Proofs.Contract

/-!
# Programs that list one tree

A program is counted through by arities alone: each instruction takes its operands off what the ones
before it have left and leaves one value. Where none finds too few and one value is left, the
program lists exactly one tree. The arity check accepts it, and where operations look at their
operands only, a run of the program on any stack puts the value of the tree on that stack.
-/

namespace Formula

namespace Program

/-- The number of values that a program leaves, by the arities of its instructions; none if one of
them finds fewer than it takes. -/
def count? (p : Program) : Option Nat :=
  p.foldlM (fun n i => if i.arity ≤ n then some (n - i.arity + 1) else none) 0

theorem count?_concat (p : Program) (i : Instruction) :
    count? (p ++ [i]) =
      (count? p).bind fun n => if i.arity ≤ n then some (n - i.arity + 1) else none := by
  rw [count?, List.foldlM_append, ← count?]
  cases count? p with
  | none => rfl
  | some n => simp

/-- As many values are left as trees are listed. -/
theorem count?_eq_some_iff {p : Program} {n : Nat} :
    count? p = some n ↔ ∃ ts, Lists Instruction.arity p ts ∧ ts.length = n := by
  induction p using List.reverseRecOn generalizing n with
  | nil =>
    constructor
    · intro h
      cases h
      exact ⟨[], .nil, rfl⟩
    · rintro ⟨ts, hts, rfl⟩
      rw [hts.unique .nil]
      rfl
  | append_singleton p i ih =>
    rw [count?_concat]
    constructor
    · intro h
      obtain ⟨m, hm, hlast⟩ := Option.bind_eq_some_iff.mp h
      obtain ⟨ts, hts, rfl⟩ := ih.mp hm
      split at hlast
      · rename_i hle
        cases hlast
        rw [← List.take_append_drop (ts.length - i.arity) ts] at hts
        refine ⟨_, hts.concat (by rw [List.length_drop]; omega), ?_⟩
        rw [List.length_append, List.length_take, List.length_singleton]
        omega
      · cases hlast
    · rintro ⟨ts, hts, rfl⟩
      obtain ⟨rest, operands, rfl, hlength, hfront⟩ := hts.of_concat
      rw [ih.mpr ⟨_, hfront, rfl⟩, Option.bind_some, if_pos (by rw [List.length_append]; omega)]
      rw [List.length_append, List.length_append, List.length_singleton, hlength,
        Nat.add_sub_cancel]

end Program

namespace Tree

/-- Running listings where each leaves its value puts all the values on the stack. -/
theorem run_flatMap_postorder {ts : List (Tree Instruction)}
    (hts : ∀ t ∈ ts, ∀ s, Program.run t.postorder s = s.push t.value) (s : Stack) :
    Program.run (ts.flatMap postorder) s = s.pushAll (ts.map value) := by
  induction ts generalizing s with
  | nil => rfl
  | cons t ts ih =>
    rw [List.flatMap_cons, Program.run_append, hts t (by simp), List.map_cons, Stack.pushAll_cons]
    exact ih (fun u hu => hts u (by simp [hu])) _

/-- Where operations look at their operands only, running the listing of a tree leaves the stack as
it is and puts the value of the tree on it. -/
theorem run_postorder_eq_push {t : Tree Instruction} (hranked : t.Ranked Instruction.arity)
    (hfunctions : ∀ op, .operator op ∈ t.postorder → op.entry.IsFunction) (s : Stack) :
    Program.run t.postorder s = s.push t.value := by
  induction t generalizing s with
  | node i operands ih =>
    cases hranked with
    | node hlength hoperands =>
      have hvalues : Program.run (operands.flatMap postorder) s =
          s.pushAll (operands.map value) := by
        refine run_flatMap_postorder (fun t ht s =>
          ih t ht (hoperands t ht) (fun op hop => hfunctions op ?_) s) s
        rw [postorder_node]
        exact List.mem_append_left _ (List.mem_flatMap.mpr ⟨t, ht, hop⟩)
      rw [postorder_node, Program.run_concat, hvalues, value_node]
      cases i with
      | number value =>
        rw [List.eq_nil_of_length_eq_zero hlength]
        rfl
      | operator op =>
        exact hfunctions op (by simp) s _ (by rw [List.length_map, hlength]; rfl)

end Tree

/-- A program whose instructions all find their operands and that leaves one value lists exactly one
tree. The arity check accepts every such program that memory holds. Where operations look at their
operands only, a run on any stack adds the value of the tree to that stack and changes nothing
below, and the program evaluates to that value. -/
theorem exists_tree_of_count? {p : Program} (h : p.count? = some 1) :
    ∃ t : Tree Instruction, (t.Ranked Instruction.arity ∧ t.postorder = p) ∧
      (∀ u : Tree Instruction, u.Ranked Instruction.arity ∧ u.postorder = p → u = t) ∧
      (p.length < 2 ^ 63 → p.checkArity = .ok ()) ∧
      ((∀ op, .operator op ∈ p → op.entry.IsFunction) →
        (∀ s, p.run s = s.push t.value) ∧ p.evaluate = t.value) := by
  obtain ⟨ts, hts, hlength⟩ := Program.count?_eq_some_iff.mp h
  obtain ⟨t, rfl⟩ := List.length_eq_one_iff.mp hlength
  obtain ⟨hranked, hlabels⟩ := hts
  obtain rfl : p = t.postorder := by simpa using hlabels
  have hroot : t.Ranked Instruction.arity := hranked t (by simp)
  refine ⟨t, ⟨hroot, rfl⟩, ?_, Program.checkArity_postorder hroot, fun hfunctions => ?_⟩
  · rintro u ⟨hu, hsame⟩
    have hlists : Lists Instruction.arity t.postorder [u] := ⟨by simpa using hu, by simp [hsame]⟩
    exact List.singleton_inj.mp (hlists.unique ⟨hranked, hlabels⟩)
  · have hrun := Tree.run_postorder_eq_push hroot hfunctions
    exact ⟨hrun, by rw [Program.evaluate, hrun, Stack.pop_push]⟩

/-- A choice among a number, a difference with a constant in it, and another number. -/
theorem exists_tree_choice :
    ∃ (p : Program) (t : Tree Instruction),
      p.map Instruction.name = ["", "pi", "", "-", "", "if"] ∧ p.count? = some 1 ∧
      (t.Ranked Instruction.arity ∧ t.postorder = p) ∧
      (∀ u : Tree Instruction, u.Ranked Instruction.arity ∧ u.postorder = p → u = t) ∧
      p.checkArity = .ok () ∧ (∀ s, p.run s = s.push t.value) ∧ p.evaluate = t.value := by
  obtain ⟨p, hp⟩ : ∃ p : Program, p =
      [.number 1, .operator ⟨"pi", .ofBuiltin ⟨"pi", .constant .pi⟩⟩, .number 2,
        .operator ⟨"-", .ofBuiltin ⟨"-", .binary .subtract⟩⟩, .number 3,
        .operator ⟨"if", .ofBuiltin ⟨"if", .choice⟩⟩] := ⟨_, rfl⟩
  have hcount : p.count? = some 1 := by
    rw [hp]
    rfl
  have hlength : p.length < 2 ^ 63 := by simp [hp]
  have hfunctions : ∀ op, .operator op ∈ p → op.entry.IsFunction := by
    intro op hop
    simp only [hp, List.mem_cons, reduceCtorEq, Instruction.operator.injEq, List.not_mem_nil,
      false_or, or_false] at hop
    rcases hop with rfl | rfl | rfl <;> exact Entry.isFunction_ofBuiltin _
  obtain ⟨t, hlists, hunique, hcheck, hruns⟩ := exists_tree_of_count? hcount
  exact ⟨p, t, by simp [hp, Instruction.name], hcount, hlists, hunique, hcheck hlength,
    (hruns hfunctions).1, (hruns hfunctions).2⟩

end Formula
