import Formula.Proofs.Display
import Formula.Proofs.Faults

/-!
# Programs on one line

The line that shows a program says which program it is, if its operators are built-in operations:
none of their names has a blank or is the text of a number, so the line falls into the words of the
instructions, and each word into one instruction. A text that is compiled without further functions
has such a program, and none of its numbers is the value that is no number.
-/

namespace Formula

theorem Builtin.eq_of_id_eq {b c : Builtin} (hb : b ∈ all) (hc : c ∈ all) (h : b.id = c.id) :
    b = c :=
  List.inj_on_of_nodup_map nodup_ids hb hc h

/-- No name of a built-in operation is a text that a number may have. -/
theorem Builtin.isFloatText_id {b : Builtin} (hb : b ∈ all) :
    Decimal.isFloatText b.id.toList = false := by
  have hall : ∀ b ∈ all, Decimal.isFloatText b.id.toList = false := by decide
  exact hall b hb

theorem Builtin.blank_notMem_id {b : Builtin} (hb : b ∈ all) : ' ' ∉ b.id.toList := by
  have hall : ∀ b ∈ all, ' ' ∉ b.id.toList := by decide
  exact hall b hb

namespace Instruction

/-- A number, or a built-in operation under its own name. -/
inductive IsBuiltin : Instruction → Prop where
  | number (value : Float) : IsBuiltin (.number value)
  | operator {b : Builtin} (hb : b ∈ Builtin.all) : IsBuiltin (.operator ⟨b.id, .ofBuiltin b⟩)

variable {i j : Instruction}

/-- An instruction is shown by one word. -/
theorem IsBuiltin.blank_notMem (h : i.IsBuiltin) : ' ' ∉ i.display.toList := by
  cases h with
  | number value => exact Decimal.blank_notMem_displayFloat value
  | operator hb => exact Builtin.blank_notMem_id hb

/-- The word of a number is that of no operator. -/
theorem display_number_ne {b : Builtin} (hb : b ∈ Builtin.all) (value : Float) :
    Decimal.displayFloat value ≠ b.id := by
  intro h
  have htext := Decimal.isFloatText_displayFloat value
  rw [h, Builtin.isFloatText_id hb] at htext
  cases htext

/-- The word of an instruction says which instruction it is. -/
theorem IsBuiltin.eq_of_display_eq (hi : i.IsBuiltin) (hj : j.IsBuiltin)
    (h : i.display = j.display) : i = j := by
  cases hi with
  | number x =>
    cases hj with
    | number y => rw [Decimal.displayFloat_injective h]
    | operator hb => exact absurd h (display_number_ne hb x)
  | operator hb =>
    cases hj with
    | number y => exact absurd h.symm (display_number_ne hb y)
    | operator hc => rw [Builtin.eq_of_id_eq hb hc h]

end Instruction

namespace Program

variable {p q : Program}

/-- The line falls into the words of the instructions. -/
theorem splitOn_display (hsome : p ≠ []) (h : ∀ i ∈ p, ' ' ∉ i.display.toList) :
    p.display.toList.splitOn ' ' = p.map fun i => i.display.toList := by
  rw [display, String.toList_intercalate, List.map_map]
  refine List.splitOn_intercalate ' ' ?_ (by simpa using hsome)
  intro word hword
  obtain ⟨i, hi, rfl⟩ := List.mem_map.mp hword
  exact h i hi

/-- Programs with the same words are the same program. -/
theorem eq_of_words_eq (hp : ∀ i ∈ p, i.IsBuiltin) (hq : ∀ i ∈ q, i.IsBuiltin)
    (h : (p.map fun i => i.display.toList) = q.map fun i => i.display.toList) : p = q := by
  induction p generalizing q with
  | nil => exact (List.map_eq_nil_iff.mp h.symm).symm
  | cons i p ih =>
    cases q with
    | nil => cases h
    | cons j q =>
      obtain ⟨hhead, htail⟩ := List.cons.inj h
      obtain ⟨hi, hp⟩ := List.forall_mem_cons.mp hp
      obtain ⟨hj, hq⟩ := List.forall_mem_cons.mp hq
      rw [hi.eq_of_display_eq hj (String.toList_inj.mp hhead), ih hp hq htail]

/-- The line that shows a program of built-in operations says which program it is. -/
theorem eq_of_display_eq (hpSome : p ≠ []) (hqSome : q ≠ []) (hp : ∀ i ∈ p, i.IsBuiltin)
    (hq : ∀ i ∈ q, i.IsBuiltin) (h : p.display = q.display) : p = q := by
  refine eq_of_words_eq hp hq ?_
  rw [← splitOn_display hpSome fun i hi => (hp i hi).blank_notMem, h,
    splitOn_display hqSome fun i hi => (hq i hi).blank_notMem]

theorem ne_nil_of_checkArity (h : p.checkArity = .ok ()) : p ≠ [] := by
  rintro rfl
  exact absurd h (by decide)

end Program

theorem Token.number_of_instruction? {scope : Scope} {t : Token} {x : Float}
    (h : t.instruction? scope = some (.number x)) :
    t.kind = .number ∧ Decimal.readNumeral? t.lexeme = some x := by
  unfold instruction? at h
  split at h
  · rename_i hkind
    obtain ⟨value, hvalue, hsame⟩ := Option.map_eq_some_iff.mp h
    cases hsame
    exact ⟨hkind, hvalue⟩
  · obtain ⟨entry, -, hsame⟩ := Option.map_eq_some_iff.mp h
    cases hsame
  · obtain ⟨entry, -, hsame⟩ := Option.map_eq_some_iff.mp h
    cases hsame
  · cases h

/-- A word of the kind of a number is a numeral. -/
theorem Disciplined.isNumeral {scope : Scope} {last : Preceding} {depth : Nat}
    {words : List Word} (h : Disciplined scope last depth words) {w : Word} (hw : w ∈ words)
    (hkind : w.kind = .number) : Lexeme.IsNumeral w.lexeme.toList := by
  rcases h.cases_of_mem hw with ⟨last, next, hfollows⟩ | rfl | rfl
  · cases hfollows <;> cases hkind
    rename_i hnumeral hlast
    exact Lexeme.isNumeral_of_numeral? hnumeral
  · cases hkind
  · cases hkind

/-- None of the numbers of a compiled program is the value that is no number. -/
theorem isNaN_of_mem_program {text : String} {functions : List (String × Entry)}
    {resolver : Option Resolver} {e : Expression}
    (h : (compileWith text functions resolver).outcome = .ok e) {x : Float}
    (hx : .number x ∈ e.program) : x.isNaN = false := by
  obtain ⟨hdisciplined, -⟩ := disciplined_of_scan (outcome_scan_of_compileWith h)
  obtain ⟨final, -, -, -, hscope, hprogram⟩ := exists_of_compileWith h
  -- The number is that of a token, though not at the place of the token.
  obtain ⟨t, ht, hnumber⟩ :=
    List.mem_filterMap.mp ((Program.perm_of_ofTokens hprogram).mem_iff.mp hx)
  obtain ⟨hkind, hvalue⟩ := Token.number_of_instruction? hnumber
  exact Decimal.isNaN_of_readNumeral?
    (hdisciplined.isNumeral (List.mem_map_of_mem ht) hkind) hvalue

/-- A program that was compiled without further functions is one of built-in operations. -/
theorem isBuiltin_of_mem_program {text : String} {e : Expression} (h : compile text = .ok e) :
    ∀ i ∈ e.program, i.IsBuiltin := by
  have hscope := (disciplined_of_scan (outcome_scan_of_compileWith h)).2 rfl
  rintro (x | op) hi
  · exact .number x
  · have hlookup := lookup_of_mem_program h hi
    rw [hscope, Scope.ofFunctions_nil] at hlookup
    obtain ⟨b, hfound, hentry⟩ := Option.map_eq_some_iff.mp hlookup
    have hop : op = ⟨b.id, .ofBuiltin b⟩ := by
      rw [hentry, Builtin.id_of_find? hfound]
    rw [hop]
    exact .operator (List.mem_of_find?_eq_some hfound)

/-- The line that shows a compiled program says which program it is, and what it comes to. -/
theorem program_eq_of_display_eq {a b : String} {e f : Expression} (he : compile a = .ok e)
    (hf : compile b = .ok f) (h : e.program.display = f.program.display) :
    e.program = f.program ∧ e.evaluate = f.evaluate ∧
      ∀ x, .number x ∈ e.program → x.isNaN = false := by
  have hprogram : e.program = f.program :=
    Program.eq_of_display_eq (Program.ne_nil_of_checkArity (checkArity_of_compileWith he))
      (Program.ne_nil_of_checkArity (checkArity_of_compileWith hf))
      (isBuiltin_of_mem_program he) (isBuiltin_of_mem_program hf) h
  exact ⟨hprogram, congrArg Program.evaluate hprogram, fun x hx => isNaN_of_mem_program he hx⟩

/-- A power written in two ways: the numbers are spelled otherwise, and one has parentheses. -/
theorem program_of_display_power :
    ∃ e f, compile "-2^.5e1" = .ok e ∧ compile "( -2. ) ^ 5" = .ok f ∧
      e.program.display = f.program.display ∧ e.program = f.program ∧ e.evaluate = f.evaluate ∧
      ∀ x, .number x ∈ e.program → x.isNaN = false := by
  have hfirst : (compileWith "-2^.5e1" [] none).passes (·.program.display = "-2 5 ^") = true := by
    decide +kernel
  have hsecond :
      (compileWith "( -2. ) ^ 5" [] none).passes (·.program.display = "-2 5 ^") = true := by
    decide +kernel
  obtain ⟨e, he, heDisplay⟩ := Compilation.exists_of_passes hfirst
  obtain ⟨f, hf, hfDisplay⟩ := Compilation.exists_of_passes hsecond
  have hsame := (of_decide_eq_true heDisplay).trans (of_decide_eq_true hfDisplay).symm
  exact ⟨e, f, he, hf, hsame, program_eq_of_display_eq he hf hsame⟩

end Formula
