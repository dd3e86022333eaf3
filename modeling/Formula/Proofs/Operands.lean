import Formula.Proofs.Contract

/-!
# Operands on any stack

A built-in operation replaces the values on top of a stack, as many as it has operands, by one
value, which those values alone determine; what lies below them stays where it is. On a stack with
too few values it does the same as if values that are not numbers lay below them.
-/

namespace Formula

namespace Stack

/-- The stack with values that are not numbers below the others, so many that there are at least
`n` in all. -/
def padded (s : Stack) (n : Nat) : Stack :=
  ofList (List.replicate (n - s.size) Arithmetic.nan ++ s.toList)

/-- The top values from the lower to the upper, as many as asked for or as there are. -/
def top (s : Stack) (n : Nat) : List Float :=
  s.toList.drop (s.size - n)

@[simp] theorem length_toList (s : Stack) : s.toList.length = s.size :=
  List.length_reverse

theorem values_padded (s : Stack) (n : Nat) :
    (s.padded n).values = s.values ++ List.replicate (n - s.size) Arithmetic.nan := by
  simp [padded, ofList, toList]

@[simp] theorem padded_zero (s : Stack) : s.padded 0 = s := by
  ext1
  simp [values_padded]

/-- Taking the top value off a padded stack leaves a padded stack: an empty one yields the value
that is not a number as well. -/
theorem pop_padded (s : Stack) (n : Nat) :
    (s.padded (n + 1)).pop = (s.pop.1, s.pop.2.padded n) := by
  have hvalues := values_padded s (n + 1)
  rcases s with ⟨_ | ⟨value, rest⟩⟩
  · rw [pop, hvalues, size, List.length_nil, Nat.sub_zero, List.nil_append, List.replicate_succ]
    simp only [pop, Prod.mk.injEq, true_and]
    ext1
    simp [values_padded, size]
  · rw [pop, hvalues]
    simp only [pop, List.cons_append, Prod.mk.injEq, true_and]
    ext1
    simp [values_padded, size]

theorem toList_drop (s : Stack) (n : Nat) : (s.drop n).toList = s.toList.take (s.size - n) :=
  List.reverse_drop

/-- The values taken off, put back. -/
theorem pushAll_top (s : Stack) (n : Nat) : (s.drop n).pushAll (s.top n) = s := by
  have htop : s.top n = (s.values.take n).reverse := List.reverse_take.symm
  rw [htop, pushAll, drop, List.reverse_reverse, List.take_append_drop]

theorem length_top {s : Stack} {n : Nat} (h : n ≤ s.size) : (s.top n).length = n := by
  rw [top, List.length_drop, length_toList]
  omega

/-- A stack with too few values has no other ones. -/
theorem pushAll_top_of_le {s : Stack} {n : Nat} (h : s.size ≤ n) : empty.pushAll (s.top n) = s := by
  have hdrop : s.drop n = empty := by
    ext1
    exact List.drop_eq_nil_of_le h
  rw [← hdrop, pushAll_top]

end Stack

/-- Values that are no numbers below a stack with too few values make no difference: the operation
finds one wherever it finds no value. -/
theorem Primitive.run_padded (p : Primitive) (s : Stack) : p.run (s.padded p.arity) = p.run s := by
  cases p with
  | constant c => simp [run, arity]
  | unary f => simp [run, arity, Stack.pop_padded]
  | binary f => simp [run, arity, Stack.pop_padded]
  | choice => simp [run, arity, Stack.pop_padded]

namespace Entry

/-- An operation that keeps the contract leaves all but its operands as they are. -/
theorem KeepsContract.toList_apply {e : Entry} (h : e.KeepsContract) (s : Stack) :
    (e.apply s).toList = s.toList.take (s.size - e.arity.toNat) ++ [(e.apply s).pop.1] := by
  obtain ⟨value, hvalue⟩ := h s
  rw [hvalue, Stack.toList_push, Stack.toList_drop, Stack.pop_push]

/-- The result is what the operation makes of its operands alone, however many of them there are. -/
theorem IsFunction.result_top {e : Entry} (h : e.IsFunction) (s : Stack) :
    (e.apply s).pop.1 = e.result (s.top e.arity.toNat) := by
  rcases Nat.le_total e.arity.toNat s.size with hle | hle
  · have happly := h (s.drop e.arity.toNat) _ (Stack.length_top hle)
    rw [Stack.pushAll_top] at happly
    rw [happly, Stack.pop_push]
  · rw [result, Stack.pushAll_top_of_le hle]

/-- Of any stack a built-in operation leaves the lower values in their places, all but as many as it
has operands, and puts on top what it makes of the others alone. Where there are too few it makes
the same of them as if values that are not numbers lay below. -/
theorem apply_ofBuiltin_replaces (b : Builtin) (s : Stack) :
    ((ofBuiltin b).apply s).toList =
        s.toList.take (s.size - b.arity) ++ [(ofBuiltin b).result (s.top b.arity)] ∧
      (ofBuiltin b).apply (s.padded b.arity) = (ofBuiltin b).apply s := by
  have harity : (ofBuiltin b).arity.toNat = b.arity := toNat_arity_ofBuiltin b
  constructor
  · rw [(keepsContract_ofBuiltin b).toList_apply, (isFunction_ofBuiltin b).result_top, harity]
  · exact b.primitive.run_padded s

end Entry

end Formula
