import Formula.Proofs.Binding
import Formula.Proofs.Likeness

/-!
# Names that a text mentions

Every name that is looked up while a text is compiled is a part of the text, with its letters made
small, except the name of the minus in front of an operand. So functions that a text does not
mention make no difference to it.
-/

namespace Formula

/-- The name is a part of the text, its letters made small. -/
def Mentions (text name : String) : Prop :=
  name.toList <:+: (Text.foldCase text).toList

/-- Some function of this folded name has this entry. -/
def Gives (functions : List (String × Entry)) (name : String) (entry : Entry) : Prop :=
  ∃ key, (key, entry) ∈ functions ∧ Text.foldCase key = name

section Names

variable {text name : String} {resolver : Option Resolver} {scope : Scope} {index : Nat}
  {tokens : List Token} {t : Token}

/-- A name that the scan comes to is mentioned. -/
theorem Scanner.Meets.mentions (h : Scanner.Meets resolver scope text name index) :
    Mentions text name := by
  obtain ⟨s, cs, p, hreaches, hpiece, -, rfl, -⟩ := h
  obtain ⟨front, hfront, -⟩ := hreaches.exists_front
  rw [Mentions, String.toList_ofList, hfront, ← (Piece.next?_append hpiece).1, ← List.append_assoc]
  exact List.infix_append front p.lexeme p.rest

/-- The lexeme of a token is mentioned, unless it is a minus in front of an operand. -/
theorem mentions_of_mem_tokens (h : (scan text scope resolver).outcome = .ok tokens)
    (ht : t ∈ tokens) : t.lexeme = "u-" ∨ Mentions text t.lexeme := by
  refine or_iff_not_imp_left.mpr fun hminus => ?_
  obtain ⟨front, back, hsplit, -⟩ := (exists_laidOut_of_scan h).1.exists_of_mem ht
  have hspelling : t.spelling = t.lexeme.toList := if_neg hminus
  rw [Mentions, hsplit, hspelling, ← List.append_assoc]
  exact List.infix_append front t.lexeme.toList back

end Names

/-- Entries are alike only when they are the same, at the names that the text mentions and at the
name of the minus in front of an operand. -/
def Likeness.mentioned (text : String) : Likeness where
  names name := name = "u-" ∨ Mentions text name
  entries := Eq
  refl _ := rfl
  arity_eq h := congrArg Entry.arity h

/-- Functions that give the same entries to a name make it stand for the same. -/
theorem Scope.lookup_ofFunctions_of_gives {functions others : List (String × Entry)} {name : String}
    (hnodup : (foldedNames functions).Nodup) (hothers : (foldedNames others).Nodup)
    (h : ∀ entry, Gives functions name entry ↔ Gives others name entry) :
    (ofFunctions functions).lookup name = (ofFunctions others).lookup name := by
  have hown : (ofFunctions functions).own name = (ofFunctions others).own name := by
    ext entry
    rw [own_ofFunctions_eq_some_iff hnodup, own_ofFunctions_eq_some_iff hothers]
    exact h entry
  rw [lookup, lookup, hown]

/-- A text compiles to the same, and asks its resolver for the same names, with any two lists of
functions that agree on the names it mentions and on the minus in front of an operand. -/
theorem compileWith_eq_of_gives {text : String} {functions others : List (String × Entry)}
    (resolver : Option Resolver) (hnodup : (foldedNames functions).Nodup)
    (hothers : (foldedNames others).Nodup)
    (h : ∀ name, name = "u-" ∨ Mentions text name →
      ∀ entry, Gives functions name entry ↔ Gives others name entry) :
    compileWith text others resolver = compileWith text functions resolver := by
  have halike : (Scope.ofFunctions functions).Alike (.mentioned text) (.ofFunctions others) := by
    intro name hname
    rw [Scope.lookup_ofFunctions_of_gives hnodup hothers (h name hname)]
    exact (Likeness.mentioned text).rel_self _
  refine compileWith_eq_of_alike halike (fun name index hmeets => .inr hmeets.mentions) ?_ id
  exact fun tokens hscan t ht _ => mentions_of_mem_tokens hscan ht

/-- The text mentions `width`, which goes by two spellings, and neither `sqrt` nor `height`. -/
theorem compileWith_width_depth :
    ∃ (functions others : List (String × Entry)) (resolve : Resolver),
      functions = [("Width", .constant 0 2), ("sqrt", .constant 1 9)] ∧
      others = [("height", .constant 2 5), ("WIDTH", .constant 0 2)] ∧
      (resolve = fun name => if name = "depth" then some (.constant 3 4) else none) ∧
      (foldedNames functions).Nodup ∧ (foldedNames others).Nodup ∧
      (∀ name, name = "u-" ∨ Mentions "-width * Depth" name →
        ∀ entry, Gives functions name entry ↔ Gives others name entry) ∧
      compileWith "-width * Depth" others (some resolve) =
        compileWith "-width * Depth" functions (some resolve) ∧
      (compileWith "-width * Depth" functions (some resolve)).asked = ["depth"] ∧
      (compileWith "-width * Depth" functions (some resolve)).passes
        (fun e => e.evaluate == -8) := by
  have hfold : Text.foldCase "Width" = "width" ∧ Text.foldCase "WIDTH" = "width" ∧
      Text.foldCase "sqrt" = "sqrt" ∧ Text.foldCase "height" = "height" := by decide +kernel
  have hnodup : (foldedNames [("Width", Entry.constant 0 2), ("sqrt", .constant 1 9)]).Nodup ∧
      (foldedNames [("height", Entry.constant 2 5), ("WIDTH", .constant 0 2)]).Nodup := by
    decide +kernel
  have habsent : ∀ name, name = "u-" ∨ Mentions "-width * Depth" name →
      "sqrt" ≠ name ∧ "height" ≠ name := by
    have hnot : ∀ name ∈ ["sqrt", "height"], name ≠ "u-" ∧
        ¬name.toList <:+: (Text.foldCase "-width * Depth").toList := by decide +kernel
    refine fun name hname => ⟨?_, ?_⟩
    · rintro rfl
      exact hname.elim (hnot _ (by simp)).1 (hnot _ (by simp)).2
    · rintro rfl
      exact hname.elim (hnot _ (by simp)).1 (hnot _ (by simp)).2
  have hgives : ∀ name, name = "u-" ∨ Mentions "-width * Depth" name → ∀ entry,
      Gives [("Width", .constant 0 2), ("sqrt", .constant 1 9)] name entry ↔
        Gives [("height", .constant 2 5), ("WIDTH", .constant 0 2)] name entry := by
    intro name hname entry
    simp [Gives, or_and_right, exists_or, hfold, habsent name hname, and_assoc]
  exact ⟨_, _, _, rfl, rfl, rfl, hnodup.1, hnodup.2, hgives,
    compileWith_eq_of_gives _ hnodup.1 hnodup.2 hgives, by decide +kernel, by decide +kernel⟩

end Formula
