import Formula.Console
import Formula.Proofs.Faults

/-!
# Places of faults

A diagnostic points between two characters of the text that was compiled, in front of what it names.
So the console, which counts the characters before that place, always finds the column of its mark.
-/

namespace Formula

namespace Text

/-- The characters stand in the text at the byte position. -/
def StandsAt (part : List Char) (text : String) (index : Nat) : Prop :=
  ∃ front back, text.toList = front ++ (part ++ back) ∧ index = byteLength front

variable {part : List Char} {text : String} {index : Nat} {c : Char}

/-- A position in the text is not behind its end. -/
theorem StandsAt.add_byteLength_le (h : StandsAt part text index) :
    index + byteLength part ≤ text.utf8ByteSize := by
  obtain ⟨front, back, htext, rfl⟩ := h
  rw [← byteLength_toList, htext, byteLength_append, byteLength_append]
  omega

/-- What stands in the folded text stands at the same place of the text itself, before folding. -/
theorem StandsAt.of_foldCase (h : StandsAt part (foldCase text) index) :
    ∃ original, original.map Char.toLower = part ∧ StandsAt original text index := by
  obtain ⟨front, back, htext, rfl⟩ := h
  rw [toList_foldCase] at htext
  obtain ⟨first, rest, htext, rfl, hrest⟩ := List.map_eq_append_iff.mp htext
  obtain ⟨original, last, rfl, horiginal, -⟩ := List.map_eq_append_iff.mp hrest
  exact ⟨original, horiginal, first, last, htext, byteLength_map_toLower first⟩

/-- Every place of the folded text lies between two characters of the text. -/
theorem StandsAt.boundary (h : StandsAt part (foldCase text) index) : StandsAt [] text index := by
  obtain ⟨original, -, front, back, htext, hindex⟩ := h.of_foldCase
  exact ⟨front, original ++ back, htext, hindex⟩

theorem utf8ByteSize_foldCase (text : String) :
    (foldCase text).utf8ByteSize = text.utf8ByteSize := by
  rw [← byteLength_toList, toList_foldCase, byteLength_map_toLower, byteLength_toList]

/-- Folding makes no blank of another character. -/
theorem isBlank_toLower (h : isBlank c = true) : isBlank c.toLower = true := by
  have hdelimiter : isDelimiter c = true := by simp [isDelimiter, h]
  have hcode := code_of_isDelimiter hdelimiter
  rwa [Lexeme.toLower_eq_self (by omega)]

end Text

/-- The diagnostic points into the text: at a place between two characters, where the folded text
goes on with the token that it names. Characters that begin no token are there, and are neither
blank nor a parenthesis; an open parenthesis is missed at the end of the text. -/
structure Diagnostic.PointsInto (text : String) (d : Diagnostic) : Prop where
  text_eq : d.text = text
  index_le : d.index ≤ text.utf8ByteSize
  boundary : Text.StandsAt [] text d.index
  token : d.kind ≠ .arityMismatch → Text.StandsAt d.token.toList (Text.foldCase text) d.index
  unrecognized : d.kind = .unrecognized → d.index < text.utf8ByteSize ∧ d.token = "" ∧
    ∃ c, Text.StandsAt [c] text d.index ∧ Text.isBlank c = false ∧ c ≠ '(' ∧ c ≠ ')'
  unclosed : d.kind = .unmatchedParen → d.token = "" → d.index = text.utf8ByteSize

section Faults

variable {text : String} {scope : Scope} {resolver : Option Resolver} {tokens : List Token}
  {fault : Fault}

/-- What a fault of a scan says holds of the folded text. -/
theorem standsAt_of_scan_error (h : (scan text scope resolver).outcome = .error fault) :
    Text.StandsAt fault.token.toList (Text.foldCase text) fault.index ∧
      (fault.kind = .unrecognized → fault.token = "" ∧
        ∃ c, Text.StandsAt [c] (Text.foldCase text) fault.index ∧ Text.isBlank c = false ∧
          c ≠ '(' ∧ c ≠ ')') ∧
      (fault.kind = .unmatchedParen → fault.token = "" →
        fault.index = (Text.foldCase text).utf8ByteSize) := by
  obtain ⟨t, back, hreaches, hends⟩ :=
    Scanner.exists_reaches resolver (.start scope) (Text.foldCase text).toList
  obtain ⟨front, hsplit, hindex⟩ := hreaches.exists_front
  have hindex : t.index = Text.byteLength front := by rw [hindex, Scanner.start, Nat.zero_add]
  unfold scan at h
  generalize Scanner.run resolver _ _ = ended at h hends
  have hhere : Text.StandsAt [] (Text.foldCase text) t.index := ⟨front, back, hsplit, hindex⟩
  have hname : ∀ {name rest}, Piece.next? t.last back = some ⟨.name, name, rest⟩ →
      Text.StandsAt (String.ofList name).toList (Text.foldCase text) t.index := by
    intro name rest hpiece
    rw [String.toList_ofList]
    exact ⟨front, rest, by rw [(Piece.next?_append hpiece).1, hsplit], hindex⟩
  cases hends with
  | finished => cases h
  | unclosed hcs =>
    cases h
    refine ⟨hhere, by simp, fun _ _ => ?_⟩
    rw [← Text.byteLength_toList, hsplit, hcs, List.append_nil]
    exact hindex
  | @unopened rest hcs =>
    cases h
    exact ⟨⟨front, rest, by simp [hsplit, hcs], hindex⟩, by simp, by simp⟩
  | @unrecognized c rest hcs hpiece =>
    cases h
    rw [hcs] at hpiece hsplit
    have hhead := Piece.head_of_next?_eq_none hpiece
    exact ⟨hhere, fun _ => ⟨rfl, c, ⟨front, rest, hsplit, hindex⟩, hhead⟩, by simp⟩
  | unknown hpiece =>
    cases h
    exact ⟨hname hpiece, by simp, by simp⟩
  | unanswered hpiece =>
    cases h
    exact ⟨hname hpiece, by simp, by simp⟩

/-- A separator stands in the folded text where its token says. -/
theorem standsAt_separator (h : (scan text scope resolver).outcome = .ok tokens) {t : Token}
    (ht : t ∈ tokens) (hkind : t.kind = .separator) :
    Text.StandsAt ",".toList (Text.foldCase text) t.index := by
  have hword : t.word = .separator :=
    (disciplined_of_scan h).1.eq_separator (List.mem_map_of_mem ht) hkind
  have hspelling : t.spelling = ",".toList := by
    rw [Token.spelling, hword]
    rfl
  obtain ⟨front, back, hsplit, hindex⟩ := (exists_laidOut_of_scan h).1.exists_of_mem ht
  rw [hspelling] at hsplit
  exact ⟨front, back, hsplit, hindex.trans (Nat.zero_add _)⟩

/-- However compiling fails, the diagnostic points into the text. -/
theorem Fails.pointsInto {d : Diagnostic} (h : Fails text (scan text scope resolver) d) :
    d.PointsInto text := by
  cases h with
  | @scanning fault hscan =>
    obtain ⟨htoken, hunrecognized, hunclosed⟩ := standsAt_of_scan_error hscan
    have hboundary := htoken.boundary
    refine ⟨rfl, by simpa using hboundary.add_byteLength_le, hboundary, fun _ => htoken, ?_, ?_⟩
    · intro hkind
      obtain ⟨hempty, c, hc, hblank, hopen, hclose⟩ := hunrecognized hkind
      obtain ⟨original, horiginal, hstands⟩ := hc.of_foldCase
      obtain ⟨d, rfl, rfl⟩ := List.map_eq_singleton_iff.mp horiginal
      have hwidth := d.utf8Size_pos
      have hle := hstands.add_byteLength_le
      refine ⟨?_, hempty, d, hstands, ?_, ?_, ?_⟩
      · simp only [Text.byteLength_cons, Text.byteLength_nil] at hle
        show fault.index < _
        omega
      · by_contra hd
        rw [Text.isBlank_toLower (by simpa using hd)] at hblank
        cases hblank
      · rintro rfl
        exact hopen rfl
      · rintro rfl
        exact hclose rfl
    · intro hkind hempty
      exact (hunclosed hkind hempty).trans (Text.utf8ByteSize_foldCase text)
  | @separator tokens t hscan hfirst =>
    obtain ⟨front, back, rfl, hstray, -⟩ := hfirst
    have hcomma := standsAt_separator hscan (by simp) hstray.1
    have hboundary := hcomma.boundary
    exact ⟨rfl, by simpa using hboundary.add_byteLength_le, hboundary, fun _ => hcomma, by simp,
      by simp⟩
  | arity hscan hnone hprogram hcheck =>
    obtain ⟨hkind, hindex⟩ := Program.kind_of_checkArity_error hcheck
    refine ⟨rfl, by simp [hindex], ⟨[], text.toList, rfl, hindex⟩, fun h => absurd hkind h, ?_, ?_⟩
    · simp [hkind]
    · simp [hkind]

end Faults

namespace Console

/-- The column of a place between two characters is the number of those before it. -/
theorem column?_eq (front back : List Char) :
    column? (front ++ back) (Text.byteLength front) = some front.length := by
  induction front with
  | nil => simp [column?]
  | cons c front ih =>
    have hwidth := c.utf8Size_pos
    have hsum : Text.byteLength (c :: front) = c.utf8Size + Text.byteLength front := rfl
    rw [hsum, List.cons_append]
    rw [column?, if_neg (by omega), Nat.add_sub_cancel_left, ih]
    · rfl
    · omega

end Console

/-- A diagnostic of any text points into it. So below every line that fails the console marks the
place behind as many characters as stand before it in the line. -/
theorem pointsInto_and_marked :
    (∀ text functions resolver d, (compileWith text functions resolver).outcome = .error d →
      d.PointsInto text) ∧
    ∀ (s : Console.State) (typed : String) (d : Diagnostic), s.showJson = false →
      (Text.trim typed).isEmpty = false → Console.Command.ofLine? (Text.trim typed) = none →
      Console.compileLine s (Text.trim typed) = .error d →
      ∃ front back, (Text.trim typed).toList = front ++ back ∧ d.index = Text.byteLength front ∧
        Console.column? (Text.trim typed).toList d.index = some front.length ∧
        Console.respond s typed =
          (["      " ++ Text.trim typed,
            "      " ++ String.ofList (List.replicate front.length ' ') ++ "^",
            "Error: " ++ d.message ++ " (" ++ d.kind.label ++ ")"], some s) := by
  have hpoints : ∀ text functions resolver d,
      (compileWith text functions resolver).outcome = .error d → d.PointsInto text :=
    fun text functions resolver d hd => (compileWith_eq_error_iff.mp hd).pointsInto
  refine ⟨hpoints, fun s typed d hjson hblank hcommand hd => ?_⟩
  obtain ⟨front, back, hline, hindex⟩ := (hpoints _ _ _ _ hd).boundary
  have hcolumn : Console.column? (Text.trim typed).toList d.index = some front.length := by
    rw [hline, hindex]
    exact Console.column?_eq front back
  refine ⟨front, back, hline, hindex, hcolumn, ?_⟩
  simp only [Console.respond, Console.answer, Console.complaint, hblank, hcommand, hd, hjson,
    hcolumn]
  rfl

/-- Characters count once for the column, whatever their width: a blank of two bytes stands before
the letter that begins no token. -/
theorem marked_letter :
    ∃ d, Console.compileLine .start "1 +\u00a0\u00c4" = .error d ∧
      d.PointsInto "1 +\u00a0\u00c4" ∧ d.index = 5 ∧
      Console.respond .start " 1 +\u00a0\u00c4 " =
        (["      1 +\u00a0\u00c4", "          ^", "Error: Syntax error at position 5 (syntax)"],
          some .start) := by
  have htrim : Text.trim " 1 +\u00a0\u00c4 " = "1 +\u00a0\u00c4" := by decide +kernel
  have hd : Console.compileLine .start "1 +\u00a0\u00c4" =
      .error ⟨⟨.unrecognized, 5, ""⟩, "1 +\u00a0\u00c4", none⟩ :=
    compileWith_eq_error_iff.mpr (.scanning (by decide +kernel))
  have hmarked := pointsInto_and_marked.2 .start " 1 +\u00a0\u00c4 "
  rw [htrim] at hmarked
  obtain ⟨front, back, -, -, hcolumn, hrespond⟩ := hmarked _ rfl (by decide) (by decide) hd
  have hfour : Console.column? "1 +\u00a0\u00c4".toList 5 = some 4 := by decide
  have hlength : front.length = 4 := Option.some.inj (hcolumn.symm.trans hfour)
  refine ⟨_, hd, pointsInto_and_marked.1 _ _ _ _ hd, rfl, hrespond.trans ?_⟩
  rw [hlength]
  exact congrArg₂ Prod.mk (by decide +kernel) rfl

end Formula
