import Formula.Program.Depth
import Mathlib.Algebra.BigOperators.Group.List.Basic
import Mathlib.Data.Int.ModEq

/-!
# Heights of programs

The height of a program is the number of values that it adds to the stack by the arities of its
operators, as an integer without bounds. The arity check counts in signed words instead. The two
agree modulo `2 ^ 64` always, and exactly where arities and programs are shorter than `2 ^ 63`.
-/

namespace Formula

namespace Instruction

/-- The number of operands. -/
def arity : Instruction → Nat
  | .number _ => 0
  | .operator op => op.entry.arity.toNat

/-- How many values the stack gains, as an integer without bounds. -/
def gain (i : Instruction) : Int :=
  1 - i.arity

/-- The arity is among the nonnegative signed words. -/
def IsCounted (i : Instruction) : Prop :=
  i.arity < 2 ^ 63

@[simp] theorem arity_number (value : Float) : (number value).arity = 0 := rfl

@[simp] theorem arity_operator (op : Operator) :
    (operator op).arity = op.entry.arity.toNat := rfl

theorem gain_le_one (i : Instruction) : i.gain ≤ 1 := by
  unfold gain
  omega

/-- The effect that the arity check counts is the gain, wrapped to a signed word. -/
theorem toInt_effect (i : Instruction) : i.effect.toInt = i.gain.bmod (2 ^ 64) := by
  cases i with
  | number value => rfl
  | operator op =>
    have hcast : op.entry.arity.toInt64.toInt = (op.entry.arity.toNat : Int).bmod (2 ^ 64) :=
      BitVec.toInt_eq_toNat_bmod _
    rw [effect, Int64.toInt_sub, hcast, Int64.toInt_one, Int.sub_bmod_bmod]
    rfl

/-- Adding an effect to a depth wraps the sum of the depth and the gain. -/
theorem toInt_add_effect (depth : Int64) (i : Instruction) :
    (depth + i.effect).toInt = (depth.toInt + i.gain).bmod (2 ^ 64) := by
  rw [Int64.toInt_add, toInt_effect, Int.add_bmod_bmod]

/-- Within bounds nothing wraps. -/
theorem toInt_add_effect_of_isCounted {depth : Int64} {i : Instruction} (hi : i.IsCounted)
    (hdepth : 0 ≤ depth.toInt) (hbound : depth.toInt + 1 < 2 ^ 63) :
    (depth + i.effect).toInt = depth.toInt + i.gain := by
  have hgain := i.gain_le_one
  have harity : (i.arity : Int) < 2 ^ 63 := by exact_mod_cast hi
  rw [toInt_add_effect]
  apply Int.bmod_eq_of_le
  · rw [gain]
    omega
  · omega

end Instruction

namespace Program

/-- How many values a program adds to the stack, as an integer without bounds. -/
def height (p : Program) : Int :=
  (p.map Instruction.gain).sum

@[simp] theorem height_nil : height [] = 0 := rfl

@[simp] theorem height_cons (i : Instruction) (p : Program) :
    height (i :: p) = i.gain + height p := by
  simp [height]

@[simp] theorem height_append (p q : Program) : height (p ++ q) = height p + height q := by
  simp [height]

theorem height_eq_of_perm {p q : Program} (h : p.Perm q) : height p = height q :=
  (h.map _).sum_eq

theorem height_le_length (p : Program) : p.height ≤ p.length := by
  induction p with
  | nil => simp
  | cons i p ih =>
    have hgain := i.gain_le_one
    rw [height_cons, List.length_cons]
    omega

/-- The depth behind a program is the depth before it and the height, modulo `2 ^ 64`. -/
theorem depthAfter_modEq {depth final : Int64} {p : Program} (h : depthAfter depth p = .ok final) :
    final.toInt ≡ depth.toInt + p.height [ZMOD 2 ^ 64] := by
  induction p generalizing depth with
  | nil =>
    cases h
    simp
  | cons i p ih =>
    rw [depthAfter] at h
    split at h
    · cases h
    · have hrest := ih h
      have hstep : (depth + i.effect).toInt ≡ depth.toInt + i.gain [ZMOD 2 ^ 64] := by
        rw [Instruction.toInt_add_effect]
        exact Int.bmod_emod
      rw [height_cons, ← Int.add_assoc]
      exact hrest.trans (hstep.add_right _)

/-- Within bounds the depth behind a program is the depth before it and the height. -/
theorem toInt_of_depthAfter {depth final : Int64} {p : Program}
    (hcounted : ∀ i ∈ p, i.IsCounted) (hdepth : 0 ≤ depth.toInt)
    (hbound : depth.toInt + p.length < 2 ^ 63) (h : depthAfter depth p = .ok final) :
    final.toInt = depth.toInt + p.height ∧ 0 ≤ final.toInt := by
  induction p generalizing depth with
  | nil =>
    cases h
    simpa using hdepth
  | cons i p ih =>
    rw [List.length_cons] at hbound
    have hnext := Instruction.toInt_add_effect_of_isCounted (hcounted i (by simp)) hdepth
      (by omega)
    have hgain := i.gain_le_one
    rw [depthAfter] at h
    split at h
    · cases h
    · rename_i hnonneg
      rw [Int64.lt_iff_toInt_lt, Int64.toInt_zero] at hnonneg
      have hrest := ih (fun j hj => hcounted j (List.mem_cons_of_mem i hj)) (by omega)
        (by omega) h
      rw [height_cons]
      exact ⟨by omega, hrest.2⟩

/-- Within bounds a program whose fronts have no negative height has a depth. -/
theorem depthAfter_of_height {depth : Int64} {p : Program}
    (hcounted : ∀ i ∈ p, i.IsCounted) (hdepth : 0 ≤ depth.toInt)
    (hbound : depth.toInt + p.length < 2 ^ 63)
    (hfronts : ∀ front back, p = front ++ back → 0 ≤ depth.toInt + height front) :
    ∃ final, depthAfter depth p = .ok final := by
  induction p generalizing depth with
  | nil => exact ⟨depth, rfl⟩
  | cons i p ih =>
    rw [List.length_cons] at hbound
    have hnext := Instruction.toInt_add_effect_of_isCounted (hcounted i (by simp)) hdepth
      (by omega)
    have hgain := i.gain_le_one
    have hfirst := hfronts [i] p rfl
    rw [height_cons, height_nil] at hfirst
    have hnonneg : ¬depth + i.effect < 0 := by
      rw [Int64.lt_iff_toInt_lt, Int64.toInt_zero]
      omega
    rw [depthAfter, if_neg hnonneg]
    apply ih (fun j hj => hcounted j (List.mem_cons_of_mem i hj)) (by omega) (by omega)
    intro front back hsplit
    have hfront := hfronts (i :: front) back (by rw [hsplit, List.cons_append])
    rw [height_cons] at hfront
    omega

/-- A program that the arity check accepts has the depth one behind it. -/
theorem checkArity_eq_ok_iff (p : Program) : p.checkArity = .ok () ↔ depthAfter 0 p = .ok 1 := by
  unfold checkArity
  constructor
  · intro h
    split at h
    · cases h
    · rename_i depth hdepth
      split at h
      · rename_i hone
        rw [hdepth, hone]
      · cases h
  · intro h
    rw [h]
    rfl

end Program

end Formula
