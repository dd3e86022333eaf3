import Formula.Proofs.Height
import Formula.Proofs.Tree
import Formula.Scope
import Mathlib.Data.List.Basic
import Mathlib.Data.List.Induction

/-!
# The contract of operations

An operation is expected to take as many values off the stack as its entry declares and to put one
back, and most often that one depends on the values taken alone. The built-in operations keep both
promises. Where the first is kept, the height of a program tells how many values a run leaves as
long as no operator finds too few; where the second is kept too, running the listing of a tree
computes the value of the tree.
-/

namespace Formula

namespace Stack

/-- Takes values off, as many as asked for or as there are. -/
def drop (s : Stack) (n : Nat) : Stack :=
  ⟨s.values.drop n⟩

/-- Puts values on top, the last one topmost. -/
def pushAll (s : Stack) (values : List Float) : Stack :=
  ⟨values.reverse ++ s.values⟩

/-- Taking off one more value is one more pop. -/
@[simp] theorem drop_succ (s : Stack) (n : Nat) : s.drop (n + 1) = s.pop.2.drop n := by
  rcases s with ⟨_ | ⟨value, rest⟩⟩
  · cases n <;> rfl
  · rfl

theorem size_drop (s : Stack) (n : Nat) : (s.drop n).size = s.size - n := by
  rw [drop, size, size, List.length_drop]

@[simp] theorem pushAll_cons (s : Stack) (value : Float) (values : List Float) :
    s.pushAll (value :: values) = (s.push value).pushAll values := by
  simp [pushAll, push]

theorem drop_pushAll (s : Stack) {values : List Float} {n : Nat} (h : values.length = n) :
    (s.pushAll values).drop n = s := by
  simp [drop, pushAll, ← h]

end Stack

namespace Entry

/-- The operation takes as many values off the stack as the entry declares and puts one back. -/
def KeepsContract (e : Entry) : Prop :=
  ∀ s : Stack, ∃ value, e.apply s = (s.drop e.arity.toNat).push value

/-- What the operation makes of operands, from left to right. -/
def result (e : Entry) (operands : List Float) : Float :=
  (e.apply (Stack.empty.pushAll operands)).pop.1

/-- The operation replaces its operands by a result that depends on them alone. -/
def IsFunction (e : Entry) : Prop :=
  ∀ (s : Stack) (operands : List Float), operands.length = e.arity.toNat →
    e.apply (s.pushAll operands) = s.push (e.result operands)

theorem keepsContract_constant (identity : Nat) (value : Float) :
    (constant identity value).KeepsContract :=
  fun _ => ⟨value, rfl⟩

theorem isFunction_constant (identity : Nat) (value : Float) :
    (constant identity value).IsFunction := by
  intro s operands hlength
  rw [List.eq_nil_of_length_eq_zero hlength]
  rfl

theorem toNat_arity_ofBuiltin (b : Builtin) : (ofBuiltin b).arity.toNat = b.primitive.arity := by
  rcases b with ⟨id, primitive⟩
  cases primitive <;> rfl

theorem keepsContract_ofBuiltin (b : Builtin) : (ofBuiltin b).KeepsContract := by
  intro s
  rw [toNat_arity_ofBuiltin, apply_ofBuiltin]
  cases b.primitive with
  | constant c => exact ⟨_, rfl⟩
  | unary f => exact ⟨_, by simp [Primitive.run, Primitive.arity]; rfl⟩
  | binary f => exact ⟨_, by simp [Primitive.run, Primitive.arity]; rfl⟩
  | choice => exact ⟨_, by simp [Primitive.run, Primitive.arity]; rfl⟩

theorem isFunction_ofBuiltin (b : Builtin) : (ofBuiltin b).IsFunction := by
  intro s operands hlength
  rw [toNat_arity_ofBuiltin] at hlength
  rw [result, apply_ofBuiltin, apply_ofBuiltin]
  cases hprimitive : b.primitive with
  | constant c =>
    rw [hprimitive] at hlength
    rw [List.eq_nil_of_length_eq_zero hlength]
    rfl
  | unary f =>
    rw [hprimitive] at hlength
    obtain ⟨x, rfl⟩ := List.length_eq_one_iff.mp hlength
    rfl
  | binary f =>
    rw [hprimitive] at hlength
    obtain ⟨x, y, rfl⟩ := List.length_eq_two.mp hlength
    rfl
  | choice =>
    rw [hprimitive] at hlength
    obtain ⟨x, y, z, rfl⟩ := List.length_eq_three.mp hlength
    rfl

end Entry

namespace Instruction

/-- The value of an instruction with operands from left to right. -/
def result : Instruction → List Float → Float
  | .number value, _ => value
  | .operator op, operands => op.entry.result operands

/-- An instruction whose operation keeps the contract gains the stack what its arity says. -/
theorem size_run {i : Instruction} (hcontract : ∀ op, i = .operator op → op.entry.KeepsContract)
    {s : Stack} (hsize : i.arity ≤ s.size) : ((i.run s).size : Int) = s.size + i.gain := by
  cases i with
  | number value =>
    rw [run, Stack.size_push, gain, arity_number]
    omega
  | operator op =>
    obtain ⟨value, hvalue⟩ := hcontract op rfl s
    rw [arity_operator] at hsize
    rw [run, hvalue, Stack.size_push, Stack.size_drop, gain, arity_operator]
    omega

end Instruction

namespace Program

/-- Run from the given stack, no operator finds fewer values than it takes, so that none is ever
taken off an empty stack. -/
def NeverUnderflows (p : Program) (s : Stack) : Prop :=
  ∀ front op back, p = front ++ .operator op :: back → op.entry.arity.toNat ≤ (run front s).size

/-- The operations of the program keep the contract. -/
def KeepsContract (p : Program) : Prop :=
  ∀ op, .operator op ∈ p → op.entry.KeepsContract

theorem run_concat (p : Program) (i : Instruction) (s : Stack) :
    run (p ++ [i]) s = i.run (run p s) := by
  rw [run_append, run_cons, run_nil]

/-- Without underflow the height tells how many values a run adds. -/
theorem size_run {p : Program} {s : Stack} (hcontract : p.KeepsContract)
    (hsafe : p.NeverUnderflows s) : ((run p s).size : Int) = s.size + p.height := by
  induction p using List.reverseRecOn with
  | nil => simp
  | append_singleton p i ih =>
    have hfront := ih (fun op hop => hcontract op (List.mem_append_left _ hop))
      (fun front op back hsplit => hsafe front op (back ++ [i]) (by simp [hsplit]))
    have hsize : i.arity ≤ (run p s).size := by
      cases i with
      | number value => exact Nat.zero_le _
      | operator op => exact hsafe p op [] rfl
    rw [run_concat, Instruction.size_run (fun op hop => hcontract op (by simp [hop])) hsize, hfront]
    simp [Int.add_assoc]

theorem KeepsContract.of_append {p q : Program} (h : (p ++ q).KeepsContract) : p.KeepsContract :=
  fun op hop => h op (List.mem_append_left _ hop)

theorem NeverUnderflows.of_append {p q : Program} {s : Stack} (h : (p ++ q).NeverUnderflows s) :
    p.NeverUnderflows s :=
  fun front op back hsplit => h front op (back ++ q) (by simp [hsplit])

/-- Behind an instruction there is a value on the stack. -/
theorem size_run_pos {p : Program} (hcontract : p.KeepsContract) (hne : p ≠ []) (s : Stack) :
    0 < (run p s).size := by
  obtain ⟨front, i, rfl⟩ := (List.eq_nil_or_concat' p).resolve_left hne
  rw [run_concat]
  cases i with
  | number value => exact Nat.succ_pos _
  | operator op =>
    obtain ⟨value, hvalue⟩ := hcontract op (by simp) (run front s)
    rw [Instruction.run, hvalue]
    exact Nat.succ_pos _

/-- No operator underflows exactly when every front of the program leaves at least one value by
the arities alone. -/
theorem neverUnderflows_iff {p : Program} (hcontract : p.KeepsContract) :
    p.NeverUnderflows .empty ↔ ∀ front back, p = front ++ back → front ≠ [] → 0 < height front := by
  constructor
  · rintro hsafe front back rfl hne
    have hheight := size_run hcontract.of_append hsafe.of_append
    have hpos := size_run_pos hcontract.of_append hne .empty
    have hempty : Stack.empty.size = 0 := rfl
    omega
  · intro hheights
    induction p using List.reverseRecOn with
    | nil => exact fun front op back hsplit => absurd hsplit (by simp)
    | append_singleton p i ih =>
      have hsafe : NeverUnderflows p .empty := by
        refine ih hcontract.of_append fun front back hsplit => ?_
        exact hheights front (back ++ [i]) (by rw [hsplit, List.append_assoc])
      have hsize := size_run hcontract.of_append hsafe
      have hlast := hheights (p ++ [i]) [] (by simp) (by simp)
      have hempty : Stack.empty.size = 0 := rfl
      intro front op back hsplit
      rcases List.eq_nil_or_concat' back with rfl | ⟨back, j, rfl⟩
      · obtain ⟨rfl, hop⟩ := List.append_inj' hsplit rfl
        cases hop
        rw [height_append, height_cons, height_nil, Instruction.gain,
          Instruction.arity_operator] at hlast
        omega
      · rw [← List.cons_append, ← List.append_assoc] at hsplit
        exact hsafe front op back (List.append_inj' hsplit rfl).1

/-- The height of a listing is the number of its trees. -/
theorem height_of_lists {p : Program} {ts : List (Tree Instruction)}
    (h : Lists Instruction.arity p ts) : p.height = ts.length := by
  induction p using List.reverseRecOn generalizing ts with
  | nil =>
    rw [h.unique .nil]
    rfl
  | append_singleton p i ih =>
    obtain ⟨rest, operands, rfl, hlength, hfront⟩ := h.of_concat
    have hheight := ih hfront
    rw [List.length_append] at hheight
    rw [height_append, height_cons, height_nil, Instruction.gain, hheight, List.length_append,
      List.length_singleton]
    omega

/-- The operands of a listed operator are listed before it. -/
theorem isCounted_of_lists {p : Program} {ts : List (Tree Instruction)}
    (h : Lists Instruction.arity p ts) (hlength : p.length < 2 ^ 63) : ∀ i ∈ p, i.IsCounted := by
  intro i hi
  obtain ⟨front, back, rfl⟩ := List.append_of_mem hi
  rw [List.append_cons] at h
  obtain ⟨us, hus⟩ := h.of_append
  obtain ⟨rest, operands, rfl, harity, hoperands⟩ := hus.of_concat
  have hheight := height_of_lists hoperands
  have hle := height_le_length front
  rw [List.length_append] at hheight hlength
  rw [Instruction.IsCounted]
  omega

/-- The arity check accepts the listing of one tree. -/
theorem checkArity_postorder {t : Tree Instruction} (hranked : t.Ranked Instruction.arity)
    (hlength : t.postorder.length < 2 ^ 63) : checkArity t.postorder = .ok () := by
  have hlists : Lists Instruction.arity t.postorder [t] := ⟨by simpa using hranked, by simp⟩
  have hcounted := isCounted_of_lists hlists hlength
  have hbound : (0 : Int64).toInt + t.postorder.length < 2 ^ 63 := by
    rw [Int64.toInt_zero]
    omega
  obtain ⟨final, hfinal⟩ := depthAfter_of_height hcounted Int64.toInt_zero.ge hbound (by
    intro front back hsplit
    rw [hsplit] at hlists
    obtain ⟨us, hus⟩ := hlists.of_append
    rw [height_of_lists hus, Int64.toInt_zero]
    omega)
  have hexact := toInt_of_depthAfter hcounted Int64.toInt_zero.ge hbound hfinal
  rw [height_of_lists hlists, Int64.toInt_zero] at hexact
  rw [checkArity_eq_ok_iff, hfinal, Int64.toInt_inj.mp (hexact.1.trans Int64.toInt_one.symm)]

end Program

namespace Tree

/-- The value of a tree of instructions. -/
def value : Tree Instruction → Float :=
  fold Instruction.result

/-- The value of a tree computed above a stack, its operands one above the other. An operation
might look at what is below its operands. -/
def valueAbove : Tree Instruction → Stack → Float :=
  fold fun i operands s => (i.run (operands.foldl (fun s operand => s.push (operand s)) s)).pop.1

theorem value_node (i : Instruction) (operands : List (Tree Instruction)) :
    (node i operands).value = i.result (operands.map value) :=
  fold_node _ _ _

/-- The stack with the values of trees on it. -/
def pushValues (s : Stack) (ts : List (Tree Instruction)) : Stack :=
  (ts.map valueAbove).foldl (fun s operand => s.push (operand s)) s

theorem valueAbove_node (i : Instruction) (operands : List (Tree Instruction)) (s : Stack) :
    (node i operands).valueAbove s = (i.run (pushValues s operands)).pop.1 :=
  congrFun (fold_node _ i operands) s

@[simp] theorem pushValues_cons (s : Stack) (t : Tree Instruction) (ts : List (Tree Instruction)) :
    pushValues s (t :: ts) = pushValues (s.push (t.valueAbove s)) ts := rfl

theorem exists_pushAll (s : Stack) (ts : List (Tree Instruction)) :
    ∃ values, values.length = ts.length ∧ pushValues s ts = s.pushAll values := by
  induction ts generalizing s with
  | nil => exact ⟨[], rfl, rfl⟩
  | cons t ts ih =>
    obtain ⟨values, hlength, hvalues⟩ := ih (s.push (t.valueAbove s))
    exact ⟨t.valueAbove s :: values, by simp [hlength], by simp [hvalues]⟩

/-- Running the listings of trees puts their values on the stack. -/
theorem run_listings {ts : List (Tree Instruction)}
    (hts : ∀ t ∈ ts, ∀ s, Program.run t.postorder s = s.push (t.valueAbove s)) (s : Stack) :
    Program.run (ts.flatMap postorder) s = pushValues s ts := by
  induction ts generalizing s with
  | nil => rfl
  | cons t ts ih =>
    rw [List.flatMap_cons, Program.run_append, hts t (by simp), pushValues_cons]
    exact ih (fun u hu => hts u (by simp [hu])) _

/-- Running the listing of a tree puts its value on the stack, whatever is on it. -/
theorem run_postorder {t : Tree Instruction} (hranked : t.Ranked Instruction.arity)
    (hcontract : Program.KeepsContract t.postorder) (s : Stack) :
    Program.run t.postorder s = s.push (t.valueAbove s) := by
  induction t generalizing s with
  | node i operands ih =>
    cases hranked with
    | node hlength hoperands =>
      have hlistings : Program.run (operands.flatMap postorder) s = pushValues s operands := by
        refine run_listings (fun t ht s =>
          ih t ht (hoperands t ht) (fun op hop => hcontract op ?_) s) s
        rw [postorder_node]
        exact List.mem_append_left _ (List.mem_flatMap.mpr ⟨t, ht, hop⟩)
      rw [postorder_node, Program.run_concat, hlistings, valueAbove_node]
      cases i with
      | number value =>
        rw [List.eq_nil_of_length_eq_zero hlength]
        rfl
      | operator op =>
        obtain ⟨values, hvalues, hpush⟩ := exists_pushAll s operands
        obtain ⟨value, hvalue⟩ := hcontract op (by simp) (pushValues s operands)
        have hdrop : (s.pushAll values).drop op.entry.arity.toNat = s :=
          Stack.drop_pushAll s (hvalues.trans hlength)
        rw [Instruction.run, hvalue, hpush, hdrop]
        rfl

/-- Where operations look at their operands only, the stack below makes no difference. -/
theorem valueAbove_eq_value {t : Tree Instruction} (hranked : t.Ranked Instruction.arity)
    (hfunctions : ∀ op, .operator op ∈ t.postorder → op.entry.IsFunction) (s : Stack) :
    t.valueAbove s = t.value := by
  induction t generalizing s with
  | node i operands ih =>
    cases hranked with
    | node hlength hoperands =>
      have hvalues : ∀ ts : List (Tree Instruction), (∀ t ∈ ts, ∀ s, t.valueAbove s = t.value) →
          ∀ s, pushValues s ts = s.pushAll (ts.map value) := by
        intro ts hts
        induction ts with
        | nil => exact fun s => rfl
        | cons t ts ihts =>
          intro s
          rw [pushValues_cons, hts t (by simp), ihts fun u hu => hts u (by simp [hu])]
          simp
      rw [valueAbove_node, value_node, hvalues operands]
      · cases i with
        | number value => rfl
        | operator op =>
          rw [Instruction.run, hfunctions op (by simp) s _ (by rw [List.length_map, hlength]; rfl)]
          rfl
      · intro t ht s
        refine ih t ht (hoperands t ht) (fun op hop => hfunctions op ?_) s
        rw [postorder_node]
        exact List.mem_append_left _ (List.mem_flatMap.mpr ⟨t, ht, hop⟩)

end Tree

end Formula
