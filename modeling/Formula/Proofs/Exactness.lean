import Formula.Proofs.Height
import Mathlib.Data.List.Induction

/-!
# Exactness of the depth

The arity check counts in signed words, and an arity is any machine word. Where all arities are
among the signed words nothing wraps: the depth is the height of the program, and the verdict is the
one that the heights give. An arity that is no signed word becomes a negative number, so its effect
is not one less the arity, or the subtraction wraps.
-/

namespace Formula

namespace Instruction

/-- An arity among the signed words is the same number there. -/
theorem toInt_arity_of_isCounted {op : Operator} (h : (operator op).IsCounted) :
    op.entry.arity.toInt64.toInt = op.entry.arity.toNat := by
  have harity : (op.entry.arity.toNat : Int) < 2 ^ 63 := by exact_mod_cast h
  have hcast : op.entry.arity.toInt64.toInt = (op.entry.arity.toNat : Int).bmod (2 ^ 64) :=
    BitVec.toInt_eq_toNat_bmod _
  rw [hcast]
  apply Int.bmod_eq_of_le
  · omega
  · omega

/-- The effect of an instruction is its gain where its arity is a signed word. -/
theorem toInt_effect_of_isCounted {i : Instruction} (h : i.IsCounted) :
    i.effect.toInt = i.gain := by
  have harity : (i.arity : Int) < 2 ^ 63 := by exact_mod_cast h
  have hle := i.gain_le_one
  rw [toInt_effect]
  apply Int.bmod_eq_of_le
  · rw [gain]
    omega
  · omega

end Instruction

namespace Program

/-- No front of the program has a negative height. -/
def StaysAbove (p : Program) : Prop :=
  ∀ front back, p = front ++ back → 0 ≤ height front

/-- The height is negative behind this operator, and behind nothing before it. -/
def SinksAt (p : Program) (op : Operator) : Prop :=
  ∃ front back, p = front ++ .operator op :: back ∧ StaysAbove front ∧
    height (front ++ [.operator op]) < 0

/-- The arity check counts as with integers without bounds: effects are what arities say, neither
the subtractions in them nor the additions of the check wrap, and the verdict is that of the
heights. -/
structure CountsExactly (p : Program) : Prop where
  effect : ∀ op, .operator op ∈ p →
    (Instruction.operator op).effect.toInt = 1 - (op.entry.arity.toNat : Int)
  subtraction : ∀ op, .operator op ∈ p →
    (1 - op.entry.arity.toInt64).toInt = 1 - op.entry.arity.toInt64.toInt
  addition : ∀ front i back depth, p = front ++ i :: back → depthAfter 0 front = .ok depth →
    (depth + i.effect).toInt = depth.toInt + i.effect.toInt
  accepts : checkArity p = .ok () ↔ p.StaysAbove ∧ p.height = 1
  refuses : ∀ fault, checkArity p = .error fault ↔
    (∃ op, p.SinksAt op ∧ fault = ⟨.arityMismatch, 0, op.name⟩) ∨
      p.StaysAbove ∧ p.height ≠ 1 ∧ fault = ⟨.arityMismatch, 0, ""⟩

variable {p front back : Program} {i : Instruction} {op : Operator}

theorem StaysAbove.concat (h : p.StaysAbove) (hlast : 0 ≤ height (p ++ [i])) :
    StaysAbove (p ++ [i]) := by
  intro first rest hsplit
  rcases List.eq_nil_or_concat' rest with rfl | ⟨rest, j, rfl⟩
  · rwa [hsplit, List.append_nil] at hlast
  · rw [← List.append_assoc] at hsplit
    exact h first rest (List.append_inj' hsplit rfl).1

theorem SinksAt.not_staysAbove (h : p.SinksAt op) : ¬p.StaysAbove := by
  obtain ⟨front, back, rfl, -, hsunk⟩ := h
  intro habove
  have hnonneg := habove (front ++ [.operator op]) back (List.append_cons _ _ _)
  omega

/-- A program whose height is ever negative has an operator behind which it first is: a number only
raises it. -/
theorem staysAbove_or_sinksAt (p : Program) : p.StaysAbove ∨ ∃ op, p.SinksAt op := by
  induction p using List.reverseRecOn with
  | nil =>
    left
    intro front back hsplit
    rw [(List.append_eq_nil_iff.mp hsplit.symm).1, height_nil]
  | append_singleton p i ih =>
    rcases ih with habove | ⟨op, front, back, rfl, hfront, hsunk⟩
    · by_cases hlast : 0 ≤ height (p ++ [i])
      · exact .inl (habove.concat hlast)
      · right
        cases i with
        | number value =>
          have hheight := habove p [] (List.append_nil p).symm
          rw [height_append, height_cons, height_nil, Instruction.gain,
            Instruction.arity_number] at hlast
          omega
        | operator op => exact ⟨op, p, [], rfl, habove, Int.not_le.mp hlast⟩
    · exact .inr ⟨op, front, back ++ [i], by simp, hfront, hsunk⟩

section Counted

variable (hcounted : ∀ i ∈ p, i.IsCounted) (hlength : p.length < 2 ^ 63)
include hcounted hlength

/-- The depth is the height as long as the height is not negative. -/
theorem StaysAbove.exists_depth (h : p.StaysAbove) :
    ∃ depth, depthAfter 0 p = .ok depth ∧ depth.toInt = p.height := by
  have hbound : (0 : Int64).toInt + p.length < 2 ^ 63 := by
    rw [Int64.toInt_zero]
    omega
  obtain ⟨depth, hdepth⟩ := depthAfter_of_height hcounted Int64.toInt_zero.ge hbound (by
    intro front back hsplit
    rw [Int64.toInt_zero, Int.zero_add]
    exact h front back hsplit)
  have hexact := toInt_of_depthAfter hcounted Int64.toInt_zero.ge hbound hdepth
  rw [Int64.toInt_zero, Int.zero_add] at hexact
  exact ⟨depth, hdepth, hexact.1⟩

theorem StaysAbove.checkArity_eq (h : p.StaysAbove) :
    checkArity p = if p.height = 1 then .ok () else .error ⟨.arityMismatch, 0, ""⟩ := by
  obtain ⟨depth, hdepth, hheight⟩ := h.exists_depth hcounted hlength
  have hone : depth = 1 ↔ p.height = 1 := by
    rw [← Int64.toInt_inj, hheight, Int64.toInt_one]
  simp only [checkArity, hdepth, hone]

theorem SinksAt.checkArity_eq (h : p.SinksAt op) :
    checkArity p = .error ⟨.arityMismatch, 0, op.name⟩ := by
  obtain ⟨front, back, rfl, hfront, hsunk⟩ := h
  rw [List.length_append, List.length_cons] at hlength
  obtain ⟨depth, hdepth, hheight⟩ :=
    hfront.exists_depth (fun i hi => hcounted i (by simp [hi])) (by omega)
  have hnonneg := hfront front [] (List.append_nil front).symm
  have hle := height_le_length front
  have hnext := Instruction.toInt_add_effect_of_isCounted (hcounted (.operator op) (by simp))
    (by omega : 0 ≤ depth.toInt) (by omega)
  rw [height_append, height_cons, height_nil] at hsunk
  have hneg : depth + (Instruction.operator op).effect < 0 := by
    rw [Int64.lt_iff_toInt_lt, Int64.toInt_zero]
    omega
  simp only [checkArity, depthAfter_append, hdepth, depthAfter, if_pos hneg]
  rfl

/-- The verdict is that of the heights. -/
theorem checkArity_cases :
    (p.StaysAbove ∧ p.height = 1 ∧ checkArity p = .ok ()) ∨
      (p.StaysAbove ∧ p.height ≠ 1 ∧ checkArity p = .error ⟨.arityMismatch, 0, ""⟩) ∨
      ∃ op, p.SinksAt op ∧ checkArity p = .error ⟨.arityMismatch, 0, op.name⟩ := by
  rcases p.staysAbove_or_sinksAt with habove | ⟨op, hsinks⟩
  · have hverdict := habove.checkArity_eq hcounted hlength
    by_cases hone : p.height = 1
    · rw [if_pos hone] at hverdict
      exact .inl ⟨habove, hone, hverdict⟩
    · rw [if_neg hone] at hverdict
      exact .inr (.inl ⟨habove, hone, hverdict⟩)
  · exact .inr (.inr ⟨op, hsinks, hsinks.checkArity_eq hcounted hlength⟩)

/-- With arities that are signed words no addition of the check wraps. -/
theorem toInt_add_effect_of_depthAfter {depth : Int64} (hsplit : p = front ++ i :: back)
    (h : depthAfter 0 front = .ok depth) :
    (depth + i.effect).toInt = depth.toInt + i.effect.toInt := by
  have hi := hcounted i (by simp [hsplit])
  rw [hsplit, List.length_append, List.length_cons] at hlength
  have hdepth := toInt_of_depthAfter (fun j hj => hcounted j (by simp [hsplit, hj]))
    Int64.toInt_zero.ge (by rw [Int64.toInt_zero]; omega) h
  rw [Int64.toInt_zero, Int.zero_add] at hdepth
  have hle := height_le_length front
  rw [Instruction.toInt_add_effect_of_isCounted hi hdepth.2 (by omega),
    Instruction.toInt_effect_of_isCounted hi]

/-- Accepted are the programs whose height is never negative and one at the end. -/
theorem checkArity_accepts_iff : checkArity p = .ok () ↔ p.StaysAbove ∧ p.height = 1 := by
  rcases checkArity_cases hcounted hlength with
    ⟨habove, hone, hverdict⟩ | ⟨-, hne, hverdict⟩ | ⟨op, hsinks, hverdict⟩
  · exact iff_of_true hverdict ⟨habove, hone⟩
  · rw [hverdict]
    exact iff_of_false nofun fun h => hne h.2
  · rw [hverdict]
    exact iff_of_false nofun fun h => hsinks.not_staysAbove h.1

/-- At fault is the first operator behind which the height is negative, or none where only the
height of the whole is wrong. -/
theorem checkArity_refuses_iff (fault : Fault) :
    checkArity p = .error fault ↔
      (∃ op, p.SinksAt op ∧ fault = ⟨.arityMismatch, 0, op.name⟩) ∨
        p.StaysAbove ∧ p.height ≠ 1 ∧ fault = ⟨.arityMismatch, 0, ""⟩ := by
  constructor
  · intro h
    rcases checkArity_cases hcounted hlength with
      ⟨-, -, hverdict⟩ | ⟨habove, hne, hverdict⟩ | ⟨op, hsinks, hverdict⟩
    · rw [hverdict] at h
      cases h
    · rw [hverdict] at h
      exact .inr ⟨habove, hne, (Except.error.inj h).symm⟩
    · rw [hverdict] at h
      exact .inl ⟨op, hsinks, (Except.error.inj h).symm⟩
  · rintro (⟨op, hsinks, rfl⟩ | ⟨habove, hne, rfl⟩)
    · exact hsinks.checkArity_eq hcounted hlength
    · rw [habove.checkArity_eq hcounted hlength, if_neg hne]

end Counted

/-- Of all programs that memory holds, the arity check counts exactly through those whose arities
are all signed words. -/
theorem countsExactly_iff (hlength : p.length < 2 ^ 63) :
    p.CountsExactly ↔ ∀ i ∈ p, i.IsCounted := by
  constructor
  · intro hexact i hi
    cases i with
    | number value => exact Nat.two_pow_pos 63
    | operator op =>
      -- Where the subtraction does not wrap either, the cast alone makes the effect exact.
      have heffect := hexact.effect op hi
      rw [Instruction.effect, hexact.subtraction op hi] at heffect
      have hword := op.entry.arity.toInt64.toInt_lt
      rw [Instruction.IsCounted, Instruction.arity_operator]
      omega
  · intro hcounted
    have heffect : ∀ op, .operator op ∈ p →
        (Instruction.operator op).effect.toInt = 1 - (op.entry.arity.toNat : Int) :=
      fun op hop => Instruction.toInt_effect_of_isCounted (hcounted _ hop)
    refine ⟨heffect, fun op hop => ?_, fun front i back depth =>
      toInt_add_effect_of_depthAfter hcounted hlength, checkArity_accepts_iff hcounted hlength,
      checkArity_refuses_iff hcounted hlength⟩
    rw [Instruction.toInt_arity_of_isCounted (hcounted _ hop)]
    exact heffect op hop

/-- The largest signed word is an arity that is counted exactly: behind one number, an operator that
declares it is at fault. -/
theorem countsExactly_largest_word :
    ∃ (p : Program) (op : Operator), p = [.number 1, .operator op] ∧
      op.entry.arity.toNat = 2 ^ 63 - 1 ∧ p.length < 2 ^ 63 ∧ p.CountsExactly ∧
      p.checkArity = .error ⟨.arityMismatch, 0, "f"⟩ := by
  let op : Operator := ⟨"f", ⟨0x7fffffffffffffff, .primitive (.constant .pi)⟩⟩
  have hlength : [Instruction.number 1, .operator op].length < 2 ^ 63 := by decide
  refine ⟨_, op, rfl, rfl, hlength, (countsExactly_iff hlength).mpr ?_, by decide +kernel⟩
  have harity : (Instruction.operator op).arity = 0x7fffffffffffffff := rfl
  simp [Instruction.IsCounted, harity]

/-- The largest arity of all is taken for minus one. An operator that declares it is counted as if
it left two values, and with a sum behind it the program is accepted, although the height is
negative from that operator on. -/
theorem not_countsExactly_largest :
    ∃ (p : Program) (f sum : Operator), p = [.operator f, .operator sum] ∧
      f.entry.arity.toNat = 2 ^ 64 - 1 ∧ sum.entry = .ofBuiltin ⟨"+", .binary .add⟩ ∧
      p.length < 2 ^ 63 ∧ (Instruction.operator f).effect = 2 ∧ p.SinksAt f ∧
      p.checkArity = .ok () ∧ ¬p.CountsExactly := by
  let f : Operator := ⟨"f", ⟨0xffffffffffffffff, .primitive (.constant .pi)⟩⟩
  let sum : Operator := ⟨"+", .ofBuiltin ⟨"+", .binary .add⟩⟩
  have hsinks : SinksAt [.operator f, .operator sum] f := by
    refine ⟨[], [.operator sum], rfl, ?_, by decide +kernel⟩
    intro front back hsplit
    rw [(List.append_eq_nil_iff.mp hsplit.symm).1, height_nil]
  have haccepted : checkArity [.operator f, .operator sum] = .ok () := by decide +kernel
  refine ⟨_, f, sum, rfl, rfl, rfl, by decide, by decide +kernel, hsinks, haccepted, ?_⟩
  intro hexact
  exact hsinks.not_staysAbove (hexact.accepts.mp haccepted).1

end Program

end Formula
