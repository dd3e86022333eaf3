import Formula.Proofs.Compiled
import Formula.Proofs.Contract

/-!
# Underflow of compiled programs

The arity check refuses a program whose depth falls below zero. An operator that finds one value
too few takes the depth to zero only, so a program that is accepted may still take a value off an
empty stack. It does so exactly when its depth comes back to zero, or when an arity is too large for
the signed words in which the depth is counted.
-/

namespace Formula

namespace Program

/-- Within bounds, the depth behind a front of an accepted program is the height of the front. -/
theorem toInt_depth_of_front {p front back : Program} (hcheck : p.checkArity = .ok ())
    (hcounted : ∀ i ∈ p, i.IsCounted) (hlength : p.length < 2 ^ 63) (hsplit : p = front ++ back) :
    ∃ depth, depthAfter 0 front = .ok depth ∧ depth.toInt = front.height ∧ 0 ≤ front.height := by
  have hdepth := (checkArity_eq_ok_iff p).mp hcheck
  rw [hsplit, depthAfter_append] at hdepth
  split at hdepth
  · cases hdepth
  · rename_i depth hfront
    have hbound : (0 : Int64).toInt + front.length < 2 ^ 63 := by
      have hle : front.length ≤ p.length := by
        rw [hsplit, List.length_append]
        omega
      rw [Int64.toInt_zero]
      omega
    have hexact := toInt_of_depthAfter (fun i hi => hcounted i (by simp [hsplit, hi]))
      Int64.toInt_zero.ge hbound hfront
    rw [Int64.toInt_zero, Int.zero_add] at hexact
    exact ⟨depth, hfront, hexact.1, hexact.1 ▸ hexact.2⟩

/-- An operator that finds its operands does not declare more of them than the program is long. -/
theorem isCounted_of_neverUnderflows {p : Program} (hcontract : p.KeepsContract)
    (hlength : p.length < 2 ^ 63) (hsafe : p.NeverUnderflows .empty) :
    ∀ i ∈ p, i.IsCounted := by
  intro i hi
  obtain ⟨front, back, rfl⟩ := List.append_of_mem hi
  cases i with
  | number value => exact Nat.two_pow_pos 63
  | operator op =>
    have harity := hsafe front op back rfl
    have hsize := size_run hcontract.of_append hsafe.of_append
    have hheight := height_le_length front
    have hempty : Stack.empty.size = 0 := rfl
    rw [List.length_append] at hlength
    rw [Instruction.IsCounted, Instruction.arity_operator]
    omega

/-- An accepted program within bounds never underflows exactly when its depth never comes back to
zero. -/
theorem neverUnderflows_iff_depth {p : Program} (hcontract : p.KeepsContract)
    (hcheck : p.checkArity = .ok ()) (hcounted : ∀ i ∈ p, i.IsCounted)
    (hlength : p.length < 2 ^ 63) :
    p.NeverUnderflows .empty ↔
      ∀ front back, p = front ++ back → front ≠ [] → depthAfter 0 front ≠ .ok 0 := by
  rw [neverUnderflows_iff hcontract]
  constructor
  · intro hheights front back hsplit hne hzero
    obtain ⟨depth, hdepth, hheight, -⟩ := toInt_depth_of_front hcheck hcounted hlength hsplit
    rw [hzero, Except.ok.injEq] at hdepth
    have hpos := hheights front back hsplit hne
    rw [← hheight, ← hdepth, Int64.toInt_zero] at hpos
    exact absurd hpos (Int.lt_irrefl 0)
  · intro hdepths front back hsplit hne
    obtain ⟨depth, hdepth, hheight, hnonneg⟩ :=
      toInt_depth_of_front hcheck hcounted hlength hsplit
    have hne' : front.height ≠ 0 := by
      intro hzero
      refine hdepths front back hsplit hne ?_
      rw [hdepth, Int64.toInt_inj.mp ((hheight.trans hzero).trans Int64.toInt_zero.symm)]
    omega

end Program

/-- An accepted program of operations that keep the contract never takes a value off an empty
stack, and leaves exactly one, exactly when all its arities are signed words and the depth that the
arity check counts comes back to zero behind none of its instructions. -/
theorem neverUnderflows_iff_of_compileWith {text : String} {functions : List (String × Entry)}
    {resolver : Option Resolver} {e : Expression}
    (hentries : EntriesSatisfy Entry.KeepsContract functions resolver)
    (htext : text.utf8ByteSize < 2 ^ 63)
    (h : (compileWith text functions resolver).outcome = .ok e) :
    (e.program.NeverUnderflows .empty ∧ (e.program.run .empty).size = 1) ↔
      (∀ i ∈ e.program, i.IsCounted) ∧
        ∀ front back, e.program = front ++ back → front ≠ [] →
          Program.depthAfter 0 front ≠ .ok 0 := by
  have hcontract : e.program.KeepsContract := fun op hop =>
    entry_of_mem_program Entry.keepsContract_ofBuiltin hentries h hop
  have hcheck := checkArity_of_compileWith h
  have hlength : e.program.length < 2 ^ 63 := (length_program_le h).trans_lt htext
  constructor
  · rintro ⟨hsafe, -⟩
    have hcounted := Program.isCounted_of_neverUnderflows hcontract hlength hsafe
    exact ⟨hcounted,
      (Program.neverUnderflows_iff_depth hcontract hcheck hcounted hlength).mp hsafe⟩
  · rintro ⟨hcounted, hdepths⟩
    have hsafe := (Program.neverUnderflows_iff_depth hcontract hcheck hcounted hlength).mpr hdepths
    refine ⟨hsafe, ?_⟩
    obtain ⟨depth, hdepth, hheight, -⟩ :=
      Program.toInt_depth_of_front hcheck hcounted hlength (List.append_nil _).symm
    rw [(Program.checkArity_eq_ok_iff _).mp hcheck, Except.ok.injEq] at hdepth
    have hsize := Program.size_run hcontract hsafe
    have hempty : Stack.empty.size = 0 := rfl
    rw [← hheight, ← hdepth, Int64.toInt_one, hempty] at hsize
    omega

/-- In `(round 1) pi` the depth comes back to zero behind `round`, which finds one value of two, and
two values are left at the end. -/
theorem underflow_round_one_pi :
    EntriesSatisfy Entry.KeepsContract [] none ∧
      ∃ e, (compileWith "(round 1) pi" [] none).outcome = .ok e ∧
        ¬e.program.NeverUnderflows .empty ∧ (e.program.run .empty).size = 2 := by
  have hpasses : (compileWith "(round 1) pi" [] none).passes (fun e =>
      e.program.map Instruction.arity = [0, 2, 0] &&
        ((Program.run (e.program.take 1) .empty).size = 1 && (e.program.run .empty).size = 2)) =
      true := by
    decide +kernel
  obtain ⟨e, houtcome, htest⟩ := Compilation.exists_of_passes hpasses
  simp only [Bool.and_eq_true, decide_eq_true_eq] at htest
  obtain ⟨harities, hfront, hfinal⟩ := htest
  refine ⟨⟨by simp, by simp⟩, e, houtcome, fun hsafe => ?_, hfinal⟩
  obtain ⟨first, rest, hprogram, -, hrest⟩ := List.map_eq_cons_iff.mp harities
  obtain ⟨second, back, rfl, harity, -⟩ := List.map_eq_cons_iff.mp hrest
  cases second with
  | number value => cases harity
  | operator op =>
    have hfound := hsafe [first] op back hprogram
    rw [hprogram] at hfront
    have hsize : (Program.run [first] .empty).size = 1 := hfront
    rw [Instruction.arity_operator] at harity
    omega

/-- In `round(7, 2) - pi` the depth stays above zero. -/
theorem no_underflow_round_minus_pi :
    EntriesSatisfy Entry.KeepsContract [] none ∧ "round(7, 2) - pi".utf8ByteSize < 2 ^ 63 ∧
      ∃ e, (compileWith "round(7, 2) - pi" [] none).outcome = .ok e ∧
        e.program.NeverUnderflows .empty ∧ (e.program.run .empty).size = 1 := by
  have hentries : EntriesSatisfy Entry.KeepsContract [] none := ⟨by simp, by simp⟩
  have htext : "round(7, 2) - pi".utf8ByteSize < 2 ^ 63 := by decide
  have hpasses : (compileWith "round(7, 2) - pi" [] none).passes (fun e =>
      e.program.all (fun i => i.arity < 2 ^ 63) &&
        (List.range e.program.length).all fun k =>
          decide (Program.depthAfter 0 (e.program.take (k + 1)) ≠ .ok 0)) = true := by
    decide +kernel
  obtain ⟨e, houtcome, htest⟩ := Compilation.exists_of_passes hpasses
  rw [Bool.and_eq_true, List.all_eq_true, List.all_eq_true] at htest
  refine ⟨hentries, htext, e, houtcome, ?_⟩
  refine (neverUnderflows_iff_of_compileWith hentries htext houtcome).mpr ⟨?_, ?_⟩
  · intro i hi
    simpa [Instruction.IsCounted] using htest.1 i hi
  · intro front back hsplit hne
    have hpos := List.length_pos_iff.mpr hne
    have hlength := congrArg List.length hsplit
    rw [List.length_append] at hlength
    have hfront := htest.2 (front.length - 1) (List.mem_range.mpr (by omega))
    rw [Nat.sub_add_cancel hpos, hsplit, List.take_left] at hfront
    exact of_decide_eq_true hfront

end Formula
